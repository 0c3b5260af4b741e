import OpenCryptoki.Common.Mac

/-!
# `OpenCryptoki.Common.Sign`: signing with a MAC or with RSA and a digest

The model of `SC_SignInit`, `SC_Sign`, `SC_SignUpdate` and `SC_SignFinal` in
`usr/lib/common/new_host.c`, of the sign manager and the digest manager behind them
(`sign_mgr.c`, `dig_mgr.c`, `mech_sha.c`, `mech_md5.c`), and of the functions for the MACs
and for RSA (`mech_aes.c`, `mech_des3.c`, `mech_rsa.c`).

`Out` is the place for the result: the memory from `pSignature` on, which may be `NULL`, and
the number that `pulSignatureLen` points to. Memory does not end at that number, so a write
past the caller's buffer is visible in the model. `NULL` for another pointer, which the
functions refuse at once, is not in the model.

A context or a digest that is not active is `none`. A mechanism is fixed from init to
cleanup, and the types of the parameter and of the work area depend on it.

Allocations succeed.
-/

set_option autoImplicit false

namespace OpenCryptoki.Common

open Lib

/-- The memory at `pSignature`, if it is not `NULL`, and the value of `*pulSignatureLen`. -/
structure Out where
  pSignature : Option Buf
  ulSignatureLen : Nat

/-- What a function that signs returns: the return value, the context, which is `none` after
`sign_mgr_cleanup`, and the output. -/
structure SignResult (C : Type) where
  rc : CkRv
  ctx : Option C
  out : Out

/-! ### The digest manager -/

/-- `DIGEST_CONTEXT` of an active digest. -/
structure DigestContext (D : Type) where
  mech : DigestMechanism
  multi : Bool
  multiInit : Bool
  context : D

section
variable {K D : Type}

/-- `digest_mgr_init`. -/
def digestMgrInit (tok : Token K D) (ctx : Option (DigestContext D)) (d : DigestMechanism) :
    CkRv × Option (DigestContext D) :=
  match ctx with
  | some ctx => (.operationActive, some ctx)
  | none =>
    match tok.hashInit d with
    | .error f => (f.rc, none)
    | .ok s    => (.ok, some { mech := d, multi := false, multiInit := false, context := s })

/-- `sha_hash` and `md5_hash`, not for the length only. -/
def shaHash (tok : Token K D) (ctx : DigestContext D) (inData : List UInt8) (outLen : Nat) :
    Except CkRv (List UInt8) :=
  if outLen < getShaSize ctx.mech then .error .bufferTooSmall
  else
    match tok.hash ctx.mech ctx.context inData with
    | .error f => .error f.rc
    | .ok hash => .ok hash

/-- `digest_mgr_digest`, not for the length only. -/
def digestMgrDigest (tok : Token K D) (ctx : Option (DigestContext D)) (inData : List UInt8)
    (outLen : Nat) : Except CkRv (List UInt8) × Option (DigestContext D) :=
  match ctx with
  | none => (.error .operationNotInitialized, none)
  | some ctx =>
    let ctx := if ctx.multiInit then ctx else { ctx with multi := false, multiInit := true }
    if ctx.multi then (.error .operationActive, none)
    else
      match shaHash tok ctx inData outLen with
      | .error .bufferTooSmall => (.error .bufferTooSmall, some ctx)
      | .error rc              => (.error rc, none)
      | .ok hash               => (.ok hash, none)

/-- `sha_hash_update` and `md5_hash_update`. -/
def shaHashUpdate (tok : Token K D) (ctx : DigestContext D) (inData : List UInt8) :
    Except CkRv D :=
  if inData.isEmpty then .ok ctx.context
  else
    match tok.hashUpdate ctx.mech ctx.context inData with
    | .error f => .error f.rc
    | .ok s    => .ok s

/-- `digest_mgr_digest_update`. -/
def digestMgrDigestUpdate (tok : Token K D) (ctx : Option (DigestContext D))
    (inData : List UInt8) : CkRv × Option (DigestContext D) :=
  match ctx with
  | none => (.operationNotInitialized, none)
  | some ctx =>
    let ctx := if ctx.multiInit then ctx else { ctx with multi := true, multiInit := true }
    if !ctx.multi then (.operationActive, none)
    else
      match shaHashUpdate tok ctx inData with
      | .error rc => (rc, none)
      | .ok s     => (.ok, some { ctx with context := s })

/-- `sha_hash_final` and `md5_hash_final`. For the length only, the bytes of the hash stay as
they are on the stack. Only their number matters then. -/
def shaHashFinal (tok : Token K D) (lengthOnly : Bool) (ctx : DigestContext D) (outLen : Nat) :
    Except CkRv (List UInt8) :=
  if lengthOnly then .ok (List.replicate (getShaSize ctx.mech) 0)
  else if outLen < getShaSize ctx.mech then .error .bufferTooSmall
  else
    match tok.hashFinal ctx.mech ctx.context with
    | .error f => .error f.rc
    | .ok hash => .ok hash

/-- `digest_mgr_digest_final`. A digest that has been returned is over. -/
def digestMgrDigestFinal (tok : Token K D) (lengthOnly : Bool) (ctx : Option (DigestContext D))
    (outLen : Nat) : Except CkRv (List UInt8) × Option (DigestContext D) :=
  match ctx with
  | none => (.error .operationNotInitialized, none)
  | some ctx =>
    let ctx := if ctx.multiInit then ctx else { ctx with multi := true, multiInit := true }
    if !ctx.multi then (.error .operationActive, none)
    else
      match shaHashFinal tok lengthOnly ctx outLen with
      | .error .bufferTooSmall => (.error .bufferTooSmall, some ctx)
      | .error rc              => (.error rc, none)
      | .ok hash               => (.ok hash, if lengthOnly then some ctx else none)

end

/-! ### Encodings -/

/-- The encoding of a tag, a length and the content. -/
def berEncode (tag : UInt8) (data : List UInt8) : Except CkRv (List UInt8) :=
  let n := data.length
  if n < 128 then .ok (tag :: UInt8.ofNat n :: data)
  else if n < 256 then .ok (tag :: 0x81 :: UInt8.ofNat n :: data)
  else if n < 2 ^ 16 then .ok (tag :: 0x82 :: UInt8.ofNat (n >>> 8) :: UInt8.ofNat n :: data)
  else if n < 2 ^ 24 then
    .ok (tag :: 0x83 :: UInt8.ofNat (n >>> 16) :: UInt8.ofNat (n >>> 8) :: UInt8.ofNat n :: data)
  else .error .functionFailed

/-- `ber_encode_OCTET_STRING`. -/
def berEncodeOctetString := berEncode 0x04

/-- `ber_encode_SEQUENCE`. -/
def berEncodeSequence := berEncode 0x30

/-- The algorithm identifier of a digest whose object identifier is that of the SHA-2 and
SHA-3 family with the given last byte. -/
def berAlgSha (last : UInt8) : List UInt8 :=
  [0x30, 0x0D, 0x06, 0x09, 0x60, 0x86, 0x48, 0x01, 0x65, 0x03, 0x04, 0x02, last, 0x05, 0x00]

/-- `rsa_pkcs_alg_oid_from_mech`. -/
def rsaPkcsAlgOidFromMech : DigestMechanism → List UInt8
  | .md5 => [0x30, 0x0C, 0x06, 0x08, 0x2A, 0x86, 0x48, 0x86, 0xF7, 0x0D, 0x02, 0x05, 0x05, 0x00]
  | .sha1 => [0x30, 0x09, 0x06, 0x05, 0x2B, 0x0E, 0x03, 0x02, 0x1A, 0x05, 0x00]
  | .sha224 => berAlgSha 0x04
  | .sha256 => berAlgSha 0x01
  | .sha384 => berAlgSha 0x02
  | .sha512 => berAlgSha 0x03
  | .sha3_224 => berAlgSha 0x07
  | .sha3_256 => berAlgSha 0x08
  | .sha3_384 => berAlgSha 0x09
  | .sha3_512 => berAlgSha 0x0A

/-! ### Contexts and the init function -/

/-- `MP_DIGEST_CONTEXT`. -/
structure MpDigestContext (D : Type) where
  hashContext : Option (DigestContext D)
  flag : Bool

/-- The parameter of a mechanism in a context. -/
def CheckedParam : Mechanism → Type
  | .mac m                            => Option (MacLen m.blockSize)
  | .rsaPkcsPss | .hashRsaPkcsPss _ _ => PssParams
  | .rsaPkcs | .hashRsaPkcs _         => Unit

/-- The work area of a mechanism. -/
def ContextOf (D : Type) : Mechanism → Type
  | .mac m                => DataContext m.blockSize
  | .rsaPkcs | .rsaPkcsPss => Unit
  | .hashRsaPkcs _        => MpDigestContext D
  | .hashRsaPkcsPss _ _   => Option (DigestContext D)

/-- The `SIGN_VERIFY_CONTEXT` of a mechanism. -/
abbrev SignCtx (D : Type) (m : Mechanism) := SignVerifyContext (CheckedParam m) (ContextOf D m)

/-- `check_pss_params`. `digest` is the digest of the mechanism, if it has one. -/
def checkPssParams (digest : Option DigestMechanism) (ulParameterLen : Nat)
    (pParameter : Option PssParams) (modlen : Nat) : Except CkRv PssParams :=
  match pParameter with
  | none => .error .mechanismParamInvalid
  | some p => do
    require (ulParameterLen = SIZEOF_CK_RSA_PKCS_PSS_PARAMS) .mechanismParamInvalid
    -- `get_mgf_mech`: there is no mask generation function with MD5.
    require (p.mgf ≠ .md5) .mechanismInvalid
    require (p.hashAlg = digest.getD p.mgf ∧ p.hashAlg = p.mgf) .mechanismParamInvalid
    require (p.sLen ≤ ulongSub (ulongSub modlen 2) (getShaSize p.hashAlg)) .mechanismParamInvalid
    .ok p

section
variable {K D : Type}

/-- The checks of `sign_mgr_init` that an RSA key is private. -/
def checkRsaPrivateKey (obj : KeyObject K) : Except CkRv Unit := do
  let keyType ← getAttribute obj.keyType
  require (keyType = CKK_RSA) .keyTypeInconsistent
  let cls ← getAttribute obj.cls
  require (cls = CKO_PRIVATE_KEY) .keyFunctionNotPermitted

/-- The case of the mechanism in `sign_mgr_init`: the parameter is checked and the work area
is set up. -/
def signInitSwitch (obj : KeyObject K) : (m : Mechanism) → CkMechanism m →
    Except CkRv (CheckedParam m × ContextOf D m)
  | .mac m, mech => do
    let param ← checkMacParam m mech
    .ok (param, .zero m.blockSize)
  | .rsaPkcs, mech => do
    require (mech.ulParameterLen = 0) .mechanismParamInvalid
    checkRsaPrivateKey obj
    .ok ((), ())
  | .rsaPkcsPss, mech => do
    let modlen ← obj.modulusLen
    let param ← checkPssParams none mech.ulParameterLen mech.pParameter modlen
    checkRsaPrivateKey obj
    .ok (param, ())
  | .hashRsaPkcs _, mech => do
    require (mech.ulParameterLen = 0) .mechanismParamInvalid
    checkRsaPrivateKey obj
    .ok ((), { hashContext := none, flag := false })
  | .hashRsaPkcsPss d _, mech => do
    let modlen ← obj.modulusLen
    let param ← checkPssParams (some d) mech.ulParameterLen mech.pParameter modlen
    checkRsaPrivateKey obj
    .ok (param, none)

/-- `sign_mgr_init` of a context that is not active. -/
def signMgrInit (tok : Token K D) (m : Mechanism) (mech : CkMechanism m) (recoverMode : Bool)
    (key : Nat) (checkpolicy checkauth : Bool) : Except CkRv (SignCtx D m) := do
  let obj ← lookupKey tok key
  checkPolicy tok .signature checkpolicy m obj
  let authRequired ← if checkauth then obj.isAlwaysAuthenticate else .ok false
  require ((if recoverMode then obj.signRecover else obj.sign) = some true)
    .keyFunctionNotPermitted
  require (obj.isMechanismAllowed m) .mechanismInvalid
  let (param, context) ← signInitSwitch obj m mech
  .ok { key, param, ulParameterLen := mech.ulParameterLen, context, multi := false,
        multiInit := false, recover := recoverMode, authRequired }

/-! ### MACs -/

section
variable {bs : Nat}

/-- `aes_mac_sign_final` and `des3_mac_sign_final`. Without kept bytes the length of the
caller's buffer is not looked at. -/
def macSignFinal (tok : MacToken K bs) (key : Nat) (param : Option (MacLen bs))
    (context : DataContext bs) (out : Out) : SignResult (DataContext bs) :=
  let macLen := macLenOf param
  match out.pSignature with
  | none => ⟨.ok, some context, ⟨none, macLen⟩⟩
  | some buf =>
    if 0 < context.len.1 then
      if out.ulSignatureLen < macLen then ⟨.bufferTooSmall, some context, ⟨some buf, macLen⟩⟩
      else
        match tok.findInMap key with
        | .error f => ⟨f.rc, some context.padded, out⟩
        | .ok obj =>
          match tok.tMac obj.value (context.padded.data.read 0 bs) context.iv with
          | (some f, iv) => ⟨f.rc, some { context.padded with iv := iv }, out⟩
          | (none, iv)   => ⟨.ok, none, ⟨some (buf.write 0 (iv.toList.take macLen)), macLen⟩⟩
    else ⟨.ok, none, ⟨some (buf.write 0 (context.iv.toList.take macLen)), macLen⟩⟩

/-- `aes_mac_sign` and `des3_mac_sign`. A failure of the token is returned, after the chaining
value has been copied and the operation ended. -/
def macSign (tok : MacToken K bs) (key : Nat) (param : Option (MacLen bs))
    (context : DataContext bs) (inData : List UInt8) (out : Out) :
    SignResult (DataContext bs) :=
  let macLen := macLenOf param
  match out.pSignature with
  | none => ⟨.ok, some context, ⟨none, macLen⟩⟩
  | some buf =>
    if inData.length % bs ≠ 0 then
      match macUpdate tok key context inData with
      | (.ok, context) => macSignFinal tok key param context out
      | (rc, context)  => ⟨rc, some context, out⟩
    else if out.ulSignatureLen < macLen then ⟨.bufferTooSmall, some context, ⟨some buf, macLen⟩⟩
    else
      match tok.findInMap key with
      | .error f => ⟨f.rc, some context, out⟩
      | .ok obj =>
        match tok.tMac obj.value inData context.iv with
        | (some f, iv) => ⟨f.rc, none, ⟨some (buf.write 0 (iv.toList.take macLen)), macLen⟩⟩
        | (none, iv)   => ⟨.ok, none, ⟨some (buf.write 0 (iv.toList.take macLen)), macLen⟩⟩

end

def aesMacSign (tok : Token K D) := macSign tok.aes

def aesMacSignUpdate (tok : Token K D) := macUpdate tok.aes

def aesMacSignFinal (tok : Token K D) := macSignFinal tok.aes

def des3MacSign (tok : Token K D) := macSign tok.des3

def des3MacSignUpdate (tok : Token K D) := macUpdate tok.des3

def des3MacSignFinal (tok : Token K D) := macSignFinal tok.des3

/-! ### RSA -/

/-- `rsa_get_key_info`: the length of the modulus and the class of the key. -/
def rsaGetKeyInfo (obj : KeyObject K) : Except CkRv (Nat × Nat) := do
  let modBytes ← obj.modulusLen
  let keyclass ← getAttribute obj.cls
  .ok (modBytes, keyclass)

/-- The end of `rsa_pkcs_sign` and `rsa_pss_sign`: the length of the buffer, the class of the
key, and the token. -/
def rsaTokenSign (modulusBytes keyclass : Nat)
    (tSign : Option (Except Failure (List UInt8))) (out : Out) (buf : Buf) : CkRv × Out :=
  if out.ulSignatureLen < modulusBytes then (.bufferTooSmall, ⟨some buf, modulusBytes⟩)
  else if keyclass ≠ CKO_PRIVATE_KEY then (.keyFunctionNotPermitted, out)
  else
    match tSign with
    | none            => (.mechanismInvalid, out)
    | some (.error f) => (f.rc, out)
    | some (.ok sig)  => (.ok, ⟨some (buf.write 0 sig), sig.length⟩)

/-- `rsa_pkcs_sign`. -/
def rsaPkcsSign (tok : Token K D) (key : Nat) (inData : List UInt8) (out : Out) : CkRv × Out :=
  match tok.findInMap key with
  | .error f => (keyLookupRv f, out)
  | .ok obj =>
    match rsaGetKeyInfo obj with
    | .error rc => (rc, out)
    | .ok (modulusBytes, keyclass) =>
      if inData.length > ulongSub modulusBytes 11 then (.dataLenRange, out)
      else
        match out.pSignature with
        | none => (.ok, ⟨none, modulusBytes⟩)
        | some buf =>
          rsaTokenSign modulusBytes keyclass (tok.tRsaSign.map fun f => f obj.value inData) out buf

/-- `rsa_pss_sign`. -/
def rsaPssSign (tok : Token K D) (key : Nat) (pssParms : PssParams) (inData : List UInt8)
    (salt : List UInt8) (out : Out) : CkRv × Out :=
  match tok.findInMap key with
  | .error f => (keyLookupRv f, out)
  | .ok obj =>
    match rsaGetKeyInfo obj with
    | .error rc => (rc, out)
    | .ok (modulusBytes, keyclass) =>
      match out.pSignature with
      | none => (.ok, ⟨none, modulusBytes⟩)
      | some buf =>
        if inData.length ≠ getShaSize pssParms.hashAlg then (.dataLenRange, out)
        else
          rsaTokenSign modulusBytes keyclass
            (tok.tRsaPssSign.map fun f => f obj.value pssParms inData salt) out buf

/-- The part of `sign_mgr_sign` in front of the switch on the mechanism. -/
def signMgrSignChecks {P C : Type} (ctx : SignVerifyContext P C) (out : Out)
    (switch : SignVerifyContext P C → SignResult (SignVerifyContext P C)) :
    SignResult (SignVerifyContext P C) :=
  if ctx.recover then ⟨.operationNotInitialized, some ctx, out⟩
  else if ctx.authRequired then ⟨.userNotLoggedIn, some ctx, out⟩
  else
    let ctx := if ctx.multiInit then ctx else { ctx with multi := false, multiInit := true }
    if ctx.multi then ⟨.operationActive, some ctx, out⟩ else switch ctx

/-- `sign_mgr_init` and `sign_mgr_sign` of a context on the stack with `CKM_RSA_PKCS`. -/
def signWithRsaPkcs (tok : Token K D) (key : Nat) (data : List UInt8) (out : Out) : CkRv × Out :=
  match signMgrInit tok .rsaPkcs ⟨none, 0⟩ false key false false with
  | .error rc => (rc, out)
  | .ok ctx =>
    let r := signMgrSignChecks ctx out fun ctx =>
      let (rc, out) := rsaPkcsSign tok ctx.key data out
      ⟨rc, some ctx, out⟩
    (r.rc, r.out)

/-- `sign_mgr_init` and `sign_mgr_sign` of a context on the stack with `CKM_RSA_PKCS_PSS`. -/
def signWithRsaPkcsPss (tok : Token K D) (key : Nat) (param : PssParams) (ulParameterLen : Nat)
    (hash salt : List UInt8) (out : Out) : CkRv × Out :=
  match signMgrInit tok .rsaPkcsPss ⟨some param, ulParameterLen⟩ false key false false with
  | .error rc => (rc, out)
  | .ok ctx =>
    let r := signMgrSignChecks ctx out fun ctx =>
      let (rc, out) := rsaPssSign tok ctx.key ctx.param hash salt out
      ⟨rc, some ctx, out⟩
    (r.rc, r.out)

/-- The end of `rsa_hash_pkcs_sign` and `rsa_hash_pkcs_sign_final`: the encoded hash is
signed. -/
def signEncodedHash (tok : Token K D) (d : DigestMechanism) (key : Nat) (hash : List UInt8)
    (out : Out) : CkRv × Out :=
  match berEncodeOctetString hash with
  | .error rc => (rc, out)
  | .ok octetStr =>
    match berEncodeSequence (rsaPkcsAlgOidFromMech d ++ octetStr) with
    | .error rc   => (rc, out)
    | .ok berData => signWithRsaPkcs tok key berData out

/-- `rsa_hash_pkcs_sign`. The digest is one on the stack. -/
def rsaHashPkcsSign (tok : Token K D) (d : DigestMechanism) (key : Nat) (inData : List UInt8)
    (out : Out) : CkRv × Out :=
  match digestMgrInit tok none d with
  | (.ok, digestCtx) =>
    match digestMgrDigest tok digestCtx inData MAX_SHA_HASH_SIZE with
    | (.error rc, _) => (rc, out)
    | (.ok hash, _)  => signEncodedHash tok d key hash out
  | (rc, _) => (rc, out)

/-- `rsa_hash_pkcs_sign_update`. -/
def rsaHashPkcsSignUpdate (tok : Token K D) (d : DigestMechanism) (context : MpDigestContext D)
    (inData : List UInt8) : CkRv × MpDigestContext D :=
  if context.flag then
    let (rc, hashContext) := digestMgrDigestUpdate tok context.hashContext inData
    (rc, { context with hashContext := hashContext })
  else
    match digestMgrInit tok context.hashContext d with
    | (.ok, hashContext) =>
      let (rc, hashContext) := digestMgrDigestUpdate tok hashContext inData
      (rc, { hashContext := hashContext, flag := true })
    | (rc, hashContext) => (rc, { context with hashContext := hashContext })

/-- `rsa_hash_pkcs_sign_final`. -/
def rsaHashPkcsSignFinal (tok : Token K D) (d : DigestMechanism) (key : Nat)
    (context : MpDigestContext D) (out : Out) : SignResult (MpDigestContext D) :=
  match if context.flag then (.ok, context) else rsaHashPkcsSignUpdate tok d context [] with
  | (.ok, context) =>
    match digestMgrDigestFinal tok out.pSignature.isNone context.hashContext MAX_SHA_HASH_SIZE with
    | (.error rc, hashContext) => ⟨rc, some { context with hashContext := hashContext }, out⟩
    | (.ok hash, hashContext) =>
      let (rc, out) := signEncodedHash tok d key hash out
      ⟨rc, some { context with hashContext := hashContext }, out⟩
  | (rc, context) => ⟨rc, some context, out⟩

/-- `rsa_hash_pss_sign`. The digest is one on the stack. -/
def rsaHashPssSign (tok : Token K D) (d : DigestMechanism) (key : Nat) (param : PssParams)
    (ulParameterLen : Nat) (inData salt : List UInt8) (out : Out) : CkRv × Out :=
  match digestMgrInit tok none d with
  | (.ok, digestCtx) =>
    match digestMgrDigest tok digestCtx inData (getShaSize d) with
    | (.error rc, _) => (rc, out)
    | (.ok hash, _)  => signWithRsaPkcsPss tok key param ulParameterLen hash salt out
  | (rc, _) => (rc, out)

/-- `rsa_hash_pss_update`. -/
def rsaHashPssUpdate (tok : Token K D) (d : DigestMechanism) (digestCtx : Option (DigestContext D))
    (inData : List UInt8) : CkRv × Option (DigestContext D) :=
  match digestCtx with
  | some digestCtx => digestMgrDigestUpdate tok (some digestCtx) inData
  | none =>
    match digestMgrInit tok none d with
    | (.ok, digestCtx) => digestMgrDigestUpdate tok digestCtx inData
    | (rc, digestCtx)  => (rc, digestCtx)

/-- `rsa_hash_pss_sign_final`. A digest that is not active is started with no data. -/
def rsaHashPssSignFinal (tok : Token K D) (d : DigestMechanism) (key : Nat) (param : PssParams)
    (ulParameterLen : Nat) (digestCtx : Option (DigestContext D)) (salt : List UInt8) (out : Out) :
    SignResult (Option (DigestContext D)) :=
  match if digestCtx.isSome then (.ok, digestCtx) else rsaHashPssUpdate tok d digestCtx [] with
  | (.ok, some digestCtx) =>
    match digestMgrDigestFinal tok out.pSignature.isNone (some digestCtx)
        (getShaSize digestCtx.mech) with
    | (.error rc, digestCtx) => ⟨rc, some digestCtx, out⟩
    | (.ok hash, digestCtx) =>
      let (rc, out) := signWithRsaPkcsPss tok key param ulParameterLen hash salt out
      ⟨rc, some digestCtx, out⟩
  | (.ok, none) => ⟨.mechanismParamInvalid, some none, out⟩
  | (rc, digestCtx) => ⟨rc, some digestCtx, out⟩

/-! ### The sign manager -/

/-- The result of a mechanism that works on the work area. -/
def SignResult.ofContext {P C : Type} (ctx : SignVerifyContext P C) (r : SignResult C) :
    SignResult (SignVerifyContext P C) :=
  ⟨r.rc, r.ctx.map fun context => { ctx with context := context }, r.out⟩

/-- The result of a mechanism that leaves the context alone. -/
def SignResult.ofOut {C : Type} (ctx : C) (r : CkRv × Out) : SignResult C := ⟨r.1, some ctx, r.2⟩

/-- The case of a MAC mechanism in `sign_mgr_sign`. -/
def macSignSwitch (tok : Token K D) : (m : MacMechanism) → Nat → Option (MacLen m.blockSize) →
    DataContext m.blockSize → List UInt8 → Out → SignResult (DataContext m.blockSize)
  | .aesMac | .aesMacGeneral   => aesMacSign tok
  | .des3Mac | .des3MacGeneral => des3MacSign tok

/-- The case of a MAC mechanism in `sign_mgr_sign_update`. -/
def macSignUpdateSwitch (tok : Token K D) : (m : MacMechanism) → Nat →
    DataContext m.blockSize → List UInt8 → CkRv × DataContext m.blockSize
  | .aesMac | .aesMacGeneral   => aesMacSignUpdate tok
  | .des3Mac | .des3MacGeneral => des3MacSignUpdate tok

/-- The case of a MAC mechanism in `sign_mgr_sign_final`. -/
def macSignFinalSwitch (tok : Token K D) : (m : MacMechanism) → Nat →
    Option (MacLen m.blockSize) → DataContext m.blockSize → Out →
    SignResult (DataContext m.blockSize)
  | .aesMac | .aesMacGeneral   => aesMacSignFinal tok
  | .des3Mac | .des3MacGeneral => des3MacSignFinal tok

/-- The case of the mechanism in `sign_mgr_sign`. -/
def signSwitch (tok : Token K D) : (m : Mechanism) → SignCtx D m → List UInt8 → List UInt8 → Out →
    SignResult (SignCtx D m)
  | .mac m, ctx, inData, _, out =>
    .ofContext ctx (macSignSwitch tok m ctx.key ctx.param ctx.context inData out)
  | .rsaPkcs, ctx, inData, _, out => .ofOut ctx (rsaPkcsSign tok ctx.key inData out)
  | .rsaPkcsPss, ctx, inData, salt, out =>
    .ofOut ctx (rsaPssSign tok ctx.key ctx.param inData salt out)
  | .hashRsaPkcs d, ctx, inData, _, out => .ofOut ctx (rsaHashPkcsSign tok d ctx.key inData out)
  | .hashRsaPkcsPss d _, ctx, inData, salt, out =>
    .ofOut ctx (rsaHashPssSign tok d ctx.key ctx.param ctx.ulParameterLen inData salt out)

/-- The case of the mechanism in `sign_mgr_sign_update`. -/
def signUpdateSwitch (tok : Token K D) : (m : Mechanism) → SignCtx D m → List UInt8 →
    CkRv × ContextOf D m
  | .mac m, ctx, inData => macSignUpdateSwitch tok m ctx.key ctx.context inData
  | .rsaPkcs, ctx, _ => (.mechanismInvalid, ctx.context)
  | .rsaPkcsPss, ctx, _ => (.mechanismInvalid, ctx.context)
  | .hashRsaPkcs d, ctx, inData => rsaHashPkcsSignUpdate tok d ctx.context inData
  | .hashRsaPkcsPss d _, ctx, inData => rsaHashPssUpdate tok d ctx.context inData

/-- The case of the mechanism in `sign_mgr_sign_final`. -/
def signFinalSwitch (tok : Token K D) : (m : Mechanism) → SignCtx D m → List UInt8 → Out →
    SignResult (SignCtx D m)
  | .mac m, ctx, _, out =>
    .ofContext ctx (macSignFinalSwitch tok m ctx.key ctx.param ctx.context out)
  | .rsaPkcs, ctx, _, out => .ofOut ctx (.mechanismInvalid, out)
  | .rsaPkcsPss, ctx, _, out => .ofOut ctx (.mechanismInvalid, out)
  | .hashRsaPkcs d, ctx, _, out =>
    .ofContext ctx (rsaHashPkcsSignFinal tok d ctx.key ctx.context out)
  | .hashRsaPkcsPss d _, ctx, salt, out =>
    .ofContext ctx
      (rsaHashPssSignFinal tok d ctx.key ctx.param ctx.ulParameterLen ctx.context salt out)

variable {m : Mechanism}

/-- `sign_mgr_sign` of an active operation. -/
def signMgrSign (tok : Token K D) (ctx : SignCtx D m) (inData salt : List UInt8) (out : Out) :
    SignResult (SignCtx D m) :=
  signMgrSignChecks ctx out fun ctx => signSwitch tok m ctx inData salt out

/-- `sign_mgr_sign_update` of an active operation. -/
def signMgrSignUpdate (tok : Token K D) (ctx : SignCtx D m) (inData : List UInt8) :
    CkRv × SignCtx D m :=
  if ctx.recover then (.operationNotInitialized, ctx)
  else if ctx.authRequired then (.userNotLoggedIn, ctx)
  else
    let ctx := if ctx.multiInit then ctx else { ctx with multi := true, multiInit := true }
    if !ctx.multi then (.operationActive, ctx)
    else
      let (rc, context) := signUpdateSwitch tok m ctx inData
      (rc, { ctx with context := context })

/-- `sign_mgr_sign_final` of an active operation. -/
def signMgrSignFinal (tok : Token K D) (ctx : SignCtx D m) (salt : List UInt8) (out : Out) :
    SignResult (SignCtx D m) :=
  if ctx.recover then ⟨.operationNotInitialized, some ctx, out⟩
  else if ctx.authRequired then ⟨.userNotLoggedIn, some ctx, out⟩
  else if !ctx.multiInit || !ctx.multi then ⟨.operationActive, some ctx, out⟩
  else signFinalSwitch tok m ctx salt out

/-! ### The session layer -/

/-- `SESSION`: the sign operation, if one is active. -/
structure Session (D : Type) (m : Mechanism) where
  signCtx : Option (SignCtx D m)

/-- What a call returns. The session is `none` if the handle is not that of one. -/
structure CallResult (D : Type) (m : Mechanism) where
  rc : CkRv
  sess : Option (Session D m)
  out : Out

/-- `SC_SignInit`. -/
def scSignInit (tok : Token K D) (sess : Option (Session D m)) (mech : CkMechanism m) (key : Nat) :
    CkRv × Option (Session D m) :=
  if !tok.initialized then (.cryptokiNotInitialized, sess)
  else
    match sess with
    | none => (.sessionHandleInvalid, none)
    | some s =>
      if tok.pinExpired then (.pinExpired, some s)
      else if !tok.validMech m then (.mechanismInvalid, some s)
      else if s.signCtx.isSome then (.operationActive, some s)
      else
        match signMgrInit tok m mech false key true true with
        | .error rc => (rc, some s)
        | .ok ctx   => (.ok, some ⟨some ctx⟩)

/-- The cleanup at the end of `SC_Sign` and `SC_SignFinal`: the operation goes on only if the
buffer was too small or if the call asked for the length. -/
def endOfSign (lengthOnly : Bool) (r : SignResult (SignCtx D m)) : CallResult D m :=
  if r.rc ≠ .bufferTooSmall ∧ (r.rc ≠ .ok ∨ !lengthOnly) then ⟨r.rc, some ⟨none⟩, r.out⟩
  else ⟨r.rc, some ⟨r.ctx⟩, r.out⟩

/-- `SC_Sign`. -/
def scSign (tok : Token K D) (sess : Option (Session D m)) (data salt : List UInt8) (out : Out) :
    CallResult D m :=
  if !tok.initialized then ⟨.cryptokiNotInitialized, sess, out⟩
  else
    match sess with
    | none => ⟨.sessionHandleInvalid, none, out⟩
    | some s =>
      match s.signCtx with
      | none => ⟨.operationNotInitialized, some ⟨none⟩, out⟩
      | some ctx => endOfSign out.pSignature.isNone (signMgrSign tok ctx data salt out)

/-- `SC_SignUpdate`. -/
def scSignUpdate (tok : Token K D) (sess : Option (Session D m)) (part : List UInt8) :
    CkRv × Option (Session D m) :=
  if !tok.initialized then (.cryptokiNotInitialized, sess)
  else
    match sess with
    | none => (.sessionHandleInvalid, none)
    | some s =>
      match s.signCtx with
      | none => (.operationNotInitialized, some ⟨none⟩)
      | some ctx =>
        match signMgrSignUpdate tok ctx part with
        | (.ok, ctx) => (.ok, some ⟨some ctx⟩)
        | (rc, _)    => (rc, some ⟨none⟩)

/-- `SC_SignFinal`. -/
def scSignFinal (tok : Token K D) (sess : Option (Session D m)) (salt : List UInt8) (out : Out) :
    CallResult D m :=
  if !tok.initialized then ⟨.cryptokiNotInitialized, sess, out⟩
  else
    match sess with
    | none => ⟨.sessionHandleInvalid, none, out⟩
    | some s =>
      match s.signCtx with
      | none => ⟨.operationNotInitialized, some ⟨none⟩, out⟩
      | some ctx => endOfSign out.pSignature.isNone (signMgrSignFinal tok ctx salt out)

end

end OpenCryptoki.Common
