import OpenCryptoki.Common.Sign

/-!
# `OpenCryptoki.Common.AesCmac`: AES-CMAC in one call and in parts

The model of the functions for `CKM_AES_CMAC` and `CKM_AES_CMAC_GENERAL` in
`usr/lib/common/mech_aes.c`.

The token computes the MAC. It is told which call is the first one and which is the last one, and
it may keep a work area behind `ctx` in between. The last call needs the end of the message, so up
to a block of a message in parts is kept back. The type of `len` says that it is not more.

`NULL` pointers are not in the model, except for the output. Allocations succeed.
-/

set_option autoImplicit false

namespace OpenCryptoki.Common

open Lib

/-- A call of `t_aes_cmac`. -/
structure CmacCall where
  message : List UInt8
  first : Bool
  last : Bool

/-- What `t_aes_cmac` writes to: `iv`, and the work area behind `ctx`. -/
structure CmacState (W : Type) where
  iv : Vector UInt8 AES_BLOCK_SIZE
  ctx : Option W

/-- What the functions get from the token. -/
structure CmacToken (K W : Type) where
  findInMap : Nat → Except Failure (KeyObject K)
  tAesCmac : K → CmacCall → CmacState W → Option Failure × CmacState W

/-- `AES_CMAC_CONTEXT`. -/
structure CmacContext (W : Type) where
  data : Buf
  len : Fin (AES_BLOCK_SIZE + 1)
  state : CmacState W
  initialized : Bool

/-- The context after the `memset` of the init functions. -/
def CmacContext.zero (W : Type) : CmacContext W where
  data := fun _ => 0
  len := 0
  state := ⟨Vector.replicate AES_BLOCK_SIZE 0, none⟩
  initialized := false

/-- `mac_len`: the parameter if there is one, and a block otherwise. -/
def cmacLenOf (param : Option (MacLen AES_BLOCK_SIZE)) : Nat :=
  match param with
  | some n => n.1
  | none   => AES_BLOCK_SIZE

/-- `remain`, where a full block counts as a rest. -/
def cmacRemain (total : Nat) : Fin (AES_BLOCK_SIZE + 1) :=
  if total % AES_BLOCK_SIZE = 0 then Fin.last AES_BLOCK_SIZE
  else ⟨total % AES_BLOCK_SIZE, Nat.lt_succ_of_lt (Nat.mod_lt _ (by decide))⟩

section
variable {K W : Type} (tok : CmacToken K W) (key : Nat)

/-- `aes_cmac_sign_update` and `aes_cmac_verify_update`. -/
def aesCmacUpdate (context : CmacContext W) (inData : List UInt8) : CkRv × CmacContext W :=
  if inData.length > ULONG_MAX - context.len then (.dataLenRange, context)
  else
    let total := context.len + inData.length
    if h : total ≤ AES_BLOCK_SIZE then
      (.ok, { context with
        data := context.data.write context.len inData
        len := ⟨total, Nat.lt_succ_of_le h⟩ })
    else
      let remain := cmacRemain total
      let outLen := total - remain
      match tok.findInMap key with
      | .error f => (f.rc, context)
      | .ok obj =>
        let cipher := context.data.read 0 context.len ++ inData.take (outLen - context.len)
        match tok.tAesCmac obj.value ⟨cipher, !context.initialized, false⟩ context.state with
        | (some f, state) => (f.rc, { context with state := state })
        | (none, state)   =>
          (.ok, { data := context.data.write 0 (inData.drop (inData.length - remain))
                  len := remain
                  state := state
                  initialized := true })

variable (param : Option (MacLen AES_BLOCK_SIZE)) (context : CmacContext W)

/-- `aes_cmac_sign` and `aes_cmac_sign_final`, which make one call of the token. A failure of the
token ends the operation in the latter. -/
def cmacSign (call : CmacCall) (failureEnds : Bool) (out : Out) : SignResult (CmacContext W) :=
  let macLen := cmacLenOf param
  match out.pSignature with
  | none => ⟨.ok, some context, ⟨none, macLen⟩⟩
  | some buf =>
    if out.ulSignatureLen < macLen then ⟨.bufferTooSmall, some context, ⟨some buf, macLen⟩⟩
    else
      match tok.findInMap key with
      | .error f => ⟨f.rc, some context, out⟩
      | .ok obj =>
        match tok.tAesCmac obj.value call context.state with
        | (some f, state) =>
          ⟨f.rc, if failureEnds then none else some { context with state := state }, out⟩
        | (none, state)   =>
          ⟨.ok, none, ⟨some (buf.write 0 (state.iv.toList.take macLen)), macLen⟩⟩

/-- `aes_cmac_verify` and `aes_cmac_verify_final`, which make one call of the token. -/
def cmacVerify (call : CmacCall) (signature : List UInt8) : CkRv × Option (CmacContext W) :=
  if signature.length ≠ cmacLenOf param then (.signatureLenRange, some context)
  else
    match tok.findInMap key with
    | .error f => (f.rc, some context)
    | .ok obj =>
      match tok.tAesCmac obj.value call context.state with
      | (some f, state) => (f.rc, some { context with state := state })
      | (none, state)   =>
        (if signature = state.iv.toList.take signature.length then .ok else .signatureInvalid, none)

/-- The call of the token in the final functions. -/
def CmacContext.lastCall : CmacCall :=
  ⟨context.data.read 0 context.len, !context.initialized, true⟩

def aesCmacSign (inData : List UInt8) := cmacSign tok key param context ⟨inData, true, true⟩ false

def aesCmacSignFinal := cmacSign tok key param context context.lastCall true

def aesCmacVerify (inData : List UInt8) := cmacVerify tok key param context ⟨inData, true, true⟩

def aesCmacVerifyFinal := cmacVerify tok key param context context.lastCall

end

end OpenCryptoki.Common
