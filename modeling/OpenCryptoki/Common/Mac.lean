import OpenCryptoki.Common.Pkcs11

/-!
# `OpenCryptoki.Common.Mac`: the block MACs and their verification

The model of the functions for `CKM_AES_MAC`, `CKM_DES3_MAC` and their `_GENERAL` forms in
`usr/lib/common/mech_aes.c` and `mech_des3.c`, and of the part of `verify_mgr.c` that leads
to them.

The AES and the DES3 functions are the same text for two block sizes and two functions of
the token, so each is an instance of one definition here. The exception is
`des3_mac_verify`, which does not look at the return value of the token.

A message arrives in parts. The context keeps the bytes after the last full block in `data`
and the chaining value in `iv`. The type of `len` says that the kept bytes are less than a
block.

A function that verifies returns `none` when it compares the signature with bytes behind
the chaining value. A context of `none` is one after `verify_mgr_cleanup`.

Allocations succeed.
-/

set_option autoImplicit false

namespace OpenCryptoki.Common

open Lib

/-- `AES_DATA_CONTEXT` and `DES_DATA_CONTEXT`. -/
structure DataContext (bs : Nat) where
  data : Buf
  len : Fin bs
  iv : Vector UInt8 bs

/-- The context after the `memset` of the init functions. -/
def DataContext.zero (bs : Nat) [NeZero bs] : DataContext bs where
  data := fun _ => 0
  len := 0
  iv := Vector.replicate bs 0

/-- Blocks are not empty. -/
instance (m : MacMechanism) : NeZero m.blockSize := by
  cases m <;> exact ⟨by decide⟩

/-- What the MAC functions get from the token: the lookup of the key, and the MAC over full
blocks. -/
structure MacToken (K : Type) (bs : Nat) where
  findInMap : Nat → Except Failure (KeyObject K)
  tMac : K → List UInt8 → Vector UInt8 bs → Option Failure × Vector UInt8 bs

def Token.aes {K D : Type} (tok : Token K D) : MacToken K AES_BLOCK_SIZE :=
  ⟨tok.findInMap, tok.tAesMac⟩

def Token.des3 {K D : Type} (tok : Token K D) : MacToken K DES_BLOCK_SIZE :=
  ⟨tok.findInMap, tok.tTdesMac⟩

/-- What the functions of a MAC mechanism get. -/
def Token.mac {K D : Type} (tok : Token K D) : (m : MacMechanism) → MacToken K m.blockSize
  | .aesMac | .aesMacGeneral   => tok.aes
  | .des3Mac | .des3MacGeneral => tok.des3

/-- `mac_len`: the parameter if there is one, and half a block otherwise. -/
def macLenOf {bs : Nat} (param : Option (MacLen bs)) : Nat :=
  match param with
  | some n => n.1
  | none   => bs / 2

section
variable {K : Type} {bs : Nat}

/-- `aes_mac_sign_update`, `aes_mac_verify_update`, `des3_mac_sign_update` and
`des3_mac_verify_update`. -/
def macUpdate (tok : MacToken K bs) (key : Nat) (context : DataContext bs)
    (inData : List UInt8) : CkRv × DataContext bs :=
  if inData.length > ULONG_MAX - context.len then (.dataLenRange, context)
  else
    let total := context.len + inData.length
    if h : total < bs then
      (.ok, { context with data := context.data.write context.len inData, len := ⟨total, h⟩ })
    else
      -- At least one block: the kept bytes and the new ones go to the token together.
      let remain := total % bs
      let outLen := total - remain
      match tok.findInMap key with
      | .error f => (f.rc, context)
      | .ok obj =>
        let cipher := context.data.read 0 context.len ++ inData.take (outLen - context.len)
        match tok.tMac obj.value cipher context.iv with
        | (some f, iv) => (f.rc, { context with iv := iv })
        | (none, iv)   =>
          let data :=
            if remain ≠ 0 then context.data.write 0 (inData.drop (inData.length - remain))
            else context.data
          (.ok, { data := data, len := ⟨remain, Nat.mod_lt _ context.len.pos⟩, iv := iv })

/-- The context with the kept bytes filled up with zeros to a block. -/
def DataContext.padded (context : DataContext bs) : DataContext bs :=
  { context with
    data := context.data.write context.len (List.replicate (bs - context.len) 0) }

/-- `CRYPTO_memcmp` of the signature and the chaining value, over the length of the
signature. -/
def cryptoMemcmp (signature : List UInt8) (iv : Vector UInt8 bs) : Option Bool :=
  if signature.length ≤ bs then some (signature == iv.toList.take signature.length) else none

/-- The comparison at the end of the functions that verify. -/
def compareMac (signature : List UInt8) (iv : Vector UInt8 bs) :
    Option (CkRv × Option (DataContext bs)) :=
  match cryptoMemcmp signature iv with
  | none       => none
  | some true  => some (.ok, none)
  | some false => some (.signatureInvalid, none)

/-- `aes_mac_verify_final` and `des3_mac_verify_final`. -/
def macVerifyFinal (tok : MacToken K bs) (key : Nat) (param : Option (MacLen bs))
    (context : DataContext bs) (signature : List UInt8) :
    Option (CkRv × Option (DataContext bs)) :=
  if 0 < context.len.1 then
    if signature.length ≠ macLenOf param then some (.signatureLenRange, some context)
    else
      match tok.findInMap key with
      | .error f => some (f.rc, some context.padded)
      | .ok obj =>
        match tok.tMac obj.value (context.padded.data.read 0 bs) context.iv with
        | (some f, iv) => some (f.rc, some { context.padded with iv := iv })
        | (none, iv)   => compareMac signature iv
  else compareMac signature context.iv

/-- `aes_mac_verify`, and `des3_mac_verify` but for a failure of the token. -/
def macVerify (tok : MacToken K bs) (key : Nat) (param : Option (MacLen bs))
    (context : DataContext bs) (inData signature : List UInt8) :
    Option (CkRv × Option (DataContext bs)) :=
  if inData.length % bs ≠ 0 then
    match macUpdate tok key context inData with
    | (.ok, context) => macVerifyFinal tok key param context signature
    | (rc, context)  => some (rc, some context)
  else if signature.length ≠ macLenOf param then some (.signatureLenRange, some context)
  else
    match tok.findInMap key with
    | .error f => some (f.rc, some context)
    | .ok obj =>
      match tok.tMac obj.value inData context.iv with
      | (some f, iv) => some (f.rc, some { context with iv := iv })
      | (none, iv)   => compareMac signature iv

end

section
variable {K D : Type}

def aesMacVerifyUpdate (tok : Token K D) := macUpdate tok.aes

def aesMacVerifyFinal (tok : Token K D) := macVerifyFinal tok.aes

def aesMacVerify (tok : Token K D) := macVerify tok.aes

def des3MacVerifyUpdate (tok : Token K D) := macUpdate tok.des3

def des3MacVerifyFinal (tok : Token K D) := macVerifyFinal tok.des3

/-- `des3_mac_verify` traces a failure of `t_tdes_mac` and goes on: the signature is compared
with the chaining value that the token has left. -/
def des3MacVerify (tok : Token K D) (key : Nat) (param : Option (MacLen DES_BLOCK_SIZE))
    (context : DataContext DES_BLOCK_SIZE) (inData signature : List UInt8) :
    Option (CkRv × Option (DataContext DES_BLOCK_SIZE)) :=
  if inData.length % DES_BLOCK_SIZE ≠ 0 then
    match des3MacVerifyUpdate tok key context inData with
    | (.ok, context) => des3MacVerifyFinal tok key param context signature
    | (rc, context)  => some (rc, some context)
  else if signature.length ≠ macLenOf param then some (.signatureLenRange, some context)
  else
    match tok.findInMap key with
    | .error f => some (f.rc, some context)
    | .ok obj  =>
      match tok.tTdesMac obj.value inData context.iv with
      | (_, iv) => compareMac signature iv

/-! ### The verify manager -/

/-- The `SIGN_VERIFY_CONTEXT` of a MAC. -/
abbrev MacContext (m : MacMechanism) :=
  SignVerifyContext (Option (MacLen m.blockSize)) (DataContext m.blockSize)

/-- `verify_mgr_init` for the MAC mechanisms. -/
def verifyMgrInit (tok : Token K D) (m : MacMechanism) (mech : CkMechanism (.mac m))
    (recoverMode : Bool) (key : Nat) (checkpolicy : Bool) : Except CkRv (MacContext m) := do
  let obj ← lookupKey tok key
  checkPolicy tok .verify checkpolicy (.mac m) obj
  require ((if recoverMode then obj.verifyRecover else obj.verify) = some true)
    .keyFunctionNotPermitted
  require (obj.isMechanismAllowed (.mac m)) .mechanismInvalid
  let param ← checkMacParam m mech
  .ok { key, param, ulParameterLen := mech.ulParameterLen, context := .zero m.blockSize,
        multi := false, multiInit := false, recover := recoverMode, authRequired := false }

/-- The case of the mechanism in `verify_mgr_verify_update`. -/
def verifyUpdateSwitch (tok : Token K D) : (m : MacMechanism) → Nat → DataContext m.blockSize →
    List UInt8 → CkRv × DataContext m.blockSize
  | .aesMac | .aesMacGeneral   => aesMacVerifyUpdate tok
  | .des3Mac | .des3MacGeneral => des3MacVerifyUpdate tok

/-- The case of the mechanism in `verify_mgr_verify_final`. -/
def verifyFinalSwitch (tok : Token K D) : (m : MacMechanism) → Nat →
    Option (MacLen m.blockSize) → DataContext m.blockSize → List UInt8 →
    Option (CkRv × Option (DataContext m.blockSize))
  | .aesMac | .aesMacGeneral   => aesMacVerifyFinal tok
  | .des3Mac | .des3MacGeneral => des3MacVerifyFinal tok

/-- The case of the mechanism in `verify_mgr_verify`. -/
def verifySwitch (tok : Token K D) : (m : MacMechanism) → Nat →
    Option (MacLen m.blockSize) → DataContext m.blockSize → List UInt8 → List UInt8 →
    Option (CkRv × Option (DataContext m.blockSize))
  | .aesMac | .aesMacGeneral   => aesMacVerify tok
  | .des3Mac | .des3MacGeneral => des3MacVerify tok

variable {m : MacMechanism}

/-- `verify_mgr_verify_update` of an active operation. -/
def verifyMgrVerifyUpdate (tok : Token K D) (ctx : MacContext m) (inData : List UInt8) :
    CkRv × MacContext m :=
  if ctx.recover then (.operationNotInitialized, ctx)
  else
    let ctx := if ctx.multiInit then ctx else { ctx with multi := true, multiInit := true }
    if !ctx.multi then (.operationActive, ctx)
    else
      let (rc, context) := verifyUpdateSwitch tok m ctx.key ctx.context inData
      (rc, { ctx with context := context })

/-- `verify_mgr_verify_final` of an active operation: the return value. -/
def verifyMgrVerifyFinal (tok : Token K D) (ctx : MacContext m) (signature : List UInt8) :
    Option CkRv :=
  if ctx.recover then some .operationNotInitialized
  else if !ctx.multiInit || !ctx.multi then some .operationActive
  else (verifyFinalSwitch tok m ctx.key ctx.param ctx.context signature).map Prod.fst

/-- `verify_mgr_verify` of an active operation: the return value. -/
def verifyMgrVerify (tok : Token K D) (ctx : MacContext m) (inData signature : List UInt8) :
    Option CkRv :=
  if ctx.recover then some .operationNotInitialized
  else
    let ctx := if ctx.multiInit then ctx else { ctx with multi := false, multiInit := true }
    if ctx.multi then some .operationActive
    else (verifySwitch tok m ctx.key ctx.param ctx.context inData signature).map Prod.fst

/-- How a message reaches an operation: in one call of `C_Sign` or `C_Verify`, or in calls of
`C_SignUpdate` or `C_VerifyUpdate` before the final call. -/
inductive Input
  | single (data : List UInt8)
  | parts (ps : List (List UInt8))

def Input.message : Input → List UInt8
  | .single data => data
  | .parts ps    => ps.flatten

def Input.isSingle : Input → Bool
  | .single _ => true
  | .parts _  => false

/-- Every piece of data is an object in memory, so its size is at most `PTRDIFF_MAX`. -/
def Input.Fits : Input → Prop
  | .single data => data.length < 2 ^ 63
  | .parts ps    => ∀ p ∈ ps, p.length < 2 ^ 63

/-- The calls of `verify_mgr_verify_update`, up to the first that fails. -/
def verifyUpdates (tok : Token K D) (ctx : MacContext m) : List (List UInt8) → CkRv × MacContext m
  | []      => (.ok, ctx)
  | p :: ps =>
    match verifyMgrVerifyUpdate tok ctx p with
    | (.ok, ctx) => verifyUpdates tok ctx ps
    | (rc, ctx)  => (rc, ctx)

/-- What the operation returns for a message and a signature. -/
def verifyReturns (tok : Token K D) (ctx : MacContext m) (signature : List UInt8) :
    Input → Option CkRv
  | .single data => verifyMgrVerify tok ctx data signature
  | .parts ps    =>
    match verifyUpdates tok ctx ps with
    | (.ok, ctx) => verifyMgrVerifyFinal tok ctx signature
    | (rc, _)    => some rc

end

end OpenCryptoki.Common
