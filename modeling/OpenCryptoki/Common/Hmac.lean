import OpenCryptoki.Common.Sign

/-!
# `OpenCryptoki.Common.Hmac`: HMACs with OpenSSL

The model of the HMAC mechanisms of a token without functions of its own for them (`t_hmac_...` are
`NULL`): the functions in `usr/lib/common/mech_sha.c` and `mech_openssl.c`, the part of the sign
manager and of the verify manager for these mechanisms (`sign_mgr.c`, `verify_mgr.c`), and the
functions of `new_host.c` that call them.

A signature to verify is the list of the bytes that the caller has, and to read past its end is a
fault. The place for a new signature is an `Out`, where a write past the caller's buffer is visible.
`NULL` for a pointer other than `pSignature` of the sign functions is not in the model.

OpenSSL is a parameter (`HmacImpl`): the HMAC of a digest is a function of the key and of the data,
and a digest context keeps the data that it has been given. Its functions do not fail, except that
the buffer for the MAC must be large enough.

The checks of an init function that do not depend on the mechanism are in `Common.Sign`. A secret
key does not need an authentication for each use, and `recover` is not set.
-/

set_option autoImplicit false

namespace OpenCryptoki.Common.Hmac

open Lib

/-! ### Mechanisms and digests -/

/-- `CKM_SHA_1_HMAC`, `CKM_SHA_1_HMAC_GENERAL` and so on. -/
inductive HmacMechanism
  | sha1Hmac
  | sha1HmacGeneral
  | sha224Hmac
  | sha224HmacGeneral
  | sha256Hmac
  | sha256HmacGeneral
  | sha384Hmac
  | sha384HmacGeneral
  | sha512Hmac
  | sha512HmacGeneral
  | sha512_224Hmac
  | sha512_224HmacGeneral
  | sha512_256Hmac
  | sha512_256HmacGeneral
  | sha3_224Hmac
  | sha3_224HmacGeneral
  | sha3_256Hmac
  | sha3_256HmacGeneral
  | sha3_384Hmac
  | sha3_384HmacGeneral
  | sha3_512Hmac
  | sha3_512HmacGeneral
  | ibmSha3_224Hmac
  | ibmSha3_256Hmac
  | ibmSha3_384Hmac
  | ibmSha3_512Hmac
  deriving DecidableEq, Repr

/-- The digest mechanisms `CKM_SHA_1` and so on. -/
inductive HmacDigest
  | sha1
  | sha224
  | sha256
  | sha384
  | sha512
  | sha512_224
  | sha512_256
  | sha3_224
  | sha3_256
  | sha3_384
  | sha3_512
  | ibmSha3_224
  | ibmSha3_256
  | ibmSha3_384
  | ibmSha3_512
  deriving DecidableEq, Repr

/-- `get_hmac_digest`: the digest, and whether the length of the MAC is a parameter. -/
def getHmacDigest : HmacMechanism → HmacDigest × Bool
  | .sha1Hmac             => (.sha1, false)
  | .sha1HmacGeneral      => (.sha1, true)
  | .sha224Hmac           => (.sha224, false)
  | .sha224HmacGeneral    => (.sha224, true)
  | .sha256Hmac           => (.sha256, false)
  | .sha256HmacGeneral    => (.sha256, true)
  | .sha384Hmac           => (.sha384, false)
  | .sha384HmacGeneral    => (.sha384, true)
  | .sha512Hmac           => (.sha512, false)
  | .sha512HmacGeneral    => (.sha512, true)
  | .sha512_224Hmac       => (.sha512_224, false)
  | .sha512_224HmacGeneral=> (.sha512_224, true)
  | .sha512_256Hmac       => (.sha512_256, false)
  | .sha512_256HmacGeneral=> (.sha512_256, true)
  | .sha3_224Hmac         => (.sha3_224, false)
  | .sha3_224HmacGeneral  => (.sha3_224, true)
  | .sha3_256Hmac         => (.sha3_256, false)
  | .sha3_256HmacGeneral  => (.sha3_256, true)
  | .sha3_384Hmac         => (.sha3_384, false)
  | .sha3_384HmacGeneral  => (.sha3_384, true)
  | .sha3_512Hmac         => (.sha3_512, false)
  | .sha3_512HmacGeneral  => (.sha3_512, true)
  | .ibmSha3_224Hmac      => (.ibmSha3_224, false)
  | .ibmSha3_256Hmac      => (.ibmSha3_256, false)
  | .ibmSha3_384Hmac      => (.ibmSha3_384, false)
  | .ibmSha3_512Hmac      => (.ibmSha3_512, false)

/-- `get_sha_size`. -/
def getShaSize : HmacDigest → Nat
  | .sha1                                             => 20
  | .sha224 | .sha512_224 | .sha3_224 | .ibmSha3_224 => 28
  | .sha256 | .sha512_256 | .sha3_256 | .ibmSha3_256 => 32
  | .sha384 | .sha3_384 | .ibmSha3_384               => 48
  | .sha512 | .sha3_512 | .ibmSha3_512               => 64

/-! ### OpenSSL -/

/-- `EVP_sha1` and so on. -/
inductive EvpMd
  | sha1
  | sha224
  | sha256
  | sha384
  | sha512
  | sha512_224
  | sha512_256
  | sha3_224
  | sha3_256
  | sha3_384
  | sha3_512
  deriving DecidableEq, Repr

/-- The size of a digest. -/
def EvpMd.size : EvpMd → Nat
  | .sha1                              => 20
  | .sha224 | .sha512_224 | .sha3_224 => 28
  | .sha256 | .sha512_256 | .sha3_256 => 32
  | .sha384 | .sha3_384               => 48
  | .sha512 | .sha3_512               => 64

/-- The HMACs of OpenSSL. -/
structure HmacImpl where
  mac : EvpMd → List UInt8 → List UInt8 → List UInt8
  length_mac : ∀ md key data, (mac md key data).length = md.size

/-- `EVP_MD_CTX` after `EVP_DigestSignInit`. -/
structure EvpMdCtx where
  md : EvpMd
  key : List UInt8
  data : List UInt8
  deriving DecidableEq, Repr

/-- `EVP_DigestSignUpdate`. -/
def evpDigestSignUpdate (mdctx : EvpMdCtx) (data : List UInt8) : EvpMdCtx :=
  { mdctx with data := mdctx.data ++ data }

/-- `EVP_DigestSignFinal` with a buffer of `len` bytes. -/
def evpDigestSignFinal (F : HmacImpl) (mdctx : EvpMdCtx) (len : Nat) : Except Stop (List UInt8) :=
  if len < mdctx.md.size then .error (.rc .functionFailed)
  else .ok (F.mac mdctx.md mdctx.key mdctx.data)

/-! ### Initialization -/

/-- `CK_MECHANISM`. The parameter is the `CK_MAC_GENERAL_PARAMS` that `pParameter` points to. -/
structure HmacCkMechanism where
  mechanism : HmacMechanism
  pParameter : Option Nat
  ulParameterLen : Nat
  deriving DecidableEq, Repr

/-- The attributes of a key that are read: `CKA_KEY_TYPE` and `CKA_VALUE`. -/
structure HmacKey where
  keyType : Option Nat
  value : Option (List UInt8)
  deriving DecidableEq, Repr

/-- `SIGN_VERIFY_CONTEXT` of an active operation. -/
structure HmacContext where
  mechanism : HmacMechanism
  pParameter : Option Nat
  context : Option EvpMdCtx
  multi : Bool
  multiInit : Bool
  deriving DecidableEq, Repr

def CKK_GENERIC_SECRET : Nat := 0x10

/-- `pkcsget_keytype_for_mech`: `*alt_keytype`, which is `CKK_SHA_1_HMAC` and so on. The other type
is `CKK_GENERIC_SECRET`. -/
def altKeytype : HmacMechanism → Nat
  | .sha1Hmac | .sha1HmacGeneral                              => 0x28
  | .sha224Hmac | .sha224HmacGeneral                          => 0x2E
  | .sha256Hmac | .sha256HmacGeneral                          => 0x2B
  | .sha384Hmac | .sha384HmacGeneral                          => 0x2C
  | .sha512Hmac | .sha512HmacGeneral                          => 0x2D
  | .sha512_224Hmac | .sha512_224HmacGeneral                  => 0x43
  | .sha512_256Hmac | .sha512_256HmacGeneral                  => 0x44
  | .sha3_224Hmac | .sha3_224HmacGeneral | .ibmSha3_224Hmac   => 0x36
  | .sha3_256Hmac | .sha3_256HmacGeneral | .ibmSha3_256Hmac   => 0x37
  | .sha3_384Hmac | .sha3_384HmacGeneral | .ibmSha3_384Hmac   => 0x38
  | .sha3_512Hmac | .sha3_512HmacGeneral | .ibmSha3_512Hmac   => 0x39

/-- The switch of `openssl_specific_hmac_init`. -/
def hmacEvpMd : HmacMechanism → EvpMd
  | .sha1Hmac | .sha1HmacGeneral                              => .sha1
  | .sha224Hmac | .sha224HmacGeneral                          => .sha224
  | .sha256Hmac | .sha256HmacGeneral                          => .sha256
  | .sha384Hmac | .sha384HmacGeneral                          => .sha384
  | .sha512Hmac | .sha512HmacGeneral                          => .sha512
  | .sha512_224Hmac | .sha512_224HmacGeneral                  => .sha512_224
  | .sha512_256Hmac | .sha512_256HmacGeneral                  => .sha512_256
  | .sha3_224Hmac | .sha3_224HmacGeneral | .ibmSha3_224Hmac   => .sha3_224
  | .sha3_256Hmac | .sha3_256HmacGeneral | .ibmSha3_256Hmac   => .sha3_256
  | .sha3_384Hmac | .sha3_384HmacGeneral | .ibmSha3_384Hmac   => .sha3_384
  | .sha3_512Hmac | .sha3_512HmacGeneral | .ibmSha3_512Hmac   => .sha3_512

def SIZEOF_CK_MAC_GENERAL_PARAMS : Nat := 8

/-- The check of the parameter in `sign_mgr_init` and `verify_mgr_init`. -/
def checkHmacParam (mech : HmacCkMechanism) : Except CkRv Unit :=
  if (getHmacDigest mech.mechanism).2 then
    match mech.pParameter with
    | none       => .error .mechanismParamInvalid
    | some param => do
      require (mech.ulParameterLen = SIZEOF_CK_MAC_GENERAL_PARAMS) .mechanismParamInvalid
      require (param ≤ getShaSize (getHmacDigest mech.mechanism).1) .mechanismParamInvalid
  else require (mech.ulParameterLen = 0) .mechanismParamInvalid

/-- `openssl_specific_hmac_init`. -/
def opensslSpecificHmacInit (mechanism : HmacMechanism) (key : HmacKey) : Except CkRv EvpMdCtx := do
  let value ← getAttribute key.value
  require (value ≠ []) .attributeValueInvalid
  .ok { md := hmacEvpMd mechanism, key := value, data := [] }

/-- The cases of the HMAC mechanisms in `sign_mgr_init` and in `verify_mgr_init`, and the context at
the end of these functions. -/
def hmacMgrInit (mech : HmacCkMechanism) (key : HmacKey) : Except CkRv HmacContext := do
  checkHmacParam mech
  let keytype ← getAttribute key.keyType
  require (keytype = CKK_GENERIC_SECRET ∨ keytype = altKeytype mech.mechanism)
    .keyTypeInconsistent
  let mdctx ← opensslSpecificHmacInit mech.mechanism key
  .ok { mechanism := mech.mechanism, pParameter := mech.pParameter, context := some mdctx,
        multi := false, multiInit := false }

/-! ### The functions with OpenSSL -/

/-- The length of the MAC: the parameter, or the size of the digest. -/
def HmacContext.hmacLen (ctx : HmacContext) (macLen : Nat) : Except Stop Nat :=
  if (getHmacDigest ctx.mechanism).2 then access ctx.pParameter else .ok macLen

/-- `ctx->context`, or the return value if there is none. -/
def HmacContext.mdctx (ctx : HmacContext) (rc : CkRv) : Except Stop EvpMdCtx :=
  match ctx.context with
  | none       => .error (.rc rc)
  | some mdctx => .ok mdctx

/-- The call of `EVP_DigestSignFinal` with the array `mac`. -/
def HmacContext.finalMac (F : HmacImpl) (ctx : HmacContext) (mdctx : EvpMdCtx) :
    Except Stop (List UInt8) :=
  evpDigestSignFinal F mdctx (getShaSize (getHmacDigest ctx.mechanism).1)

/-- The end of `openssl_specific_hmac` and `openssl_specific_hmac_final` for a verification:
`CRYPTO_memcmp` of the signature and the MAC. -/
def compareMac (ctx : HmacContext) (mac signature : List UInt8) : Except Stop Unit := do
  let len ← ctx.hmacLen mac.length
  let given ← access (readAt signature 0 len)
  let computed ← access (readAt mac 0 len)
  check (given = computed) .signatureInvalid

/-- The end of `openssl_specific_hmac` and `openssl_specific_hmac_final` for a signature: `memcpy`
of the MAC. The caller's `*sig_len` is overwritten and not looked at. -/
def copyMac (ctx : HmacContext) (mac : List UInt8) (signature : Buf) : Except Stop Out := do
  let len ← ctx.hmacLen mac.length
  let bytes ← access (readAt mac 0 len)
  .ok ⟨some (signature.write 0 bytes), len⟩

/-- `openssl_specific_hmac`, up to the MAC. -/
def opensslSpecificHmac (F : HmacImpl) (ctx : HmacContext) (inData : List UInt8) :
    Except Stop (List UInt8) := do
  let mdctx ← ctx.mdctx .functionFailed
  ctx.finalMac F (evpDigestSignUpdate mdctx inData)

/-- `openssl_specific_hmac_update`. -/
def opensslSpecificHmacUpdate (ctx : HmacContext) (inData : List UInt8) :
    Except Stop HmacContext := do
  let mdctx ← ctx.mdctx .operationNotInitialized
  .ok { ctx with context := some (evpDigestSignUpdate mdctx inData) }

/-- `sha_hmac_verify`. -/
def shaHmacVerify (F : HmacImpl) (ctx : HmacContext) (inData signature : List UInt8) :
    Except Stop Unit := do
  let mac ← opensslSpecificHmac F ctx inData
  compareMac ctx mac signature

/-- `hmac_verify_final` with a signature that is not `NULL`. -/
def hmacVerifyFinal (F : HmacImpl) (ctx : HmacContext) (signature : List UInt8) :
    Except Stop Unit := do
  let mdctx ← ctx.mdctx .operationNotInitialized
  let mac ← ctx.finalMac F mdctx
  compareMac ctx mac signature

/-- The last part of `sha_hmac_sign`, where the MAC is not empty. -/
def shaHmacSignLen (F : HmacImpl) (ctx : HmacContext) (inData : List UInt8) (hmacLen : Nat)
    (out : Out) : Except Stop Out :=
  match out.pSignature with
  | none     => .ok ⟨none, hmacLen⟩
  | some buf => do
    let mac ← opensslSpecificHmac F ctx inData
    copyMac ctx mac buf

/-- `sha_hmac_sign`. -/
def shaHmacSign (F : HmacImpl) (ctx : HmacContext) (inData : List UInt8) (out : Out) :
    Except Stop Out := do
  let digestHashLen := getShaSize (getHmacDigest ctx.mechanism).1
  let hmacLen ← ctx.hmacLen digestHashLen
  -- Without a parameter this is the length of the digest, and both checks pass.
  check (¬ hmacLen > digestHashLen) .mechanismParamInvalid
  if hmacLen = 0 then .ok { out with ulSignatureLen := 0 }
  else shaHmacSignLen F ctx inData hmacLen out

/-- `hmac_sign_final`. -/
def hmacSignFinal (F : HmacImpl) (ctx : HmacContext) (out : Out) : Except Stop Out := do
  let mdctx ← ctx.mdctx .operationNotInitialized
  match out.pSignature with
  | none     => do
    let len ← ctx.hmacLen (getShaSize (getHmacDigest ctx.mechanism).1)
    .ok ⟨none, len⟩
  | some buf => do
    let mac ← ctx.finalMac F mdctx
    copyMac ctx mac buf

/-! ### The managers -/

/-- The context at the first call after the initialization, which is one of a multi-part operation
or not. -/
def HmacContext.begin (ctx : HmacContext) (multi : Bool) : HmacContext :=
  if ctx.multiInit then ctx else { ctx with multi := multi, multiInit := true }

/-- `verify_mgr_verify`. -/
def verifyMgrVerify (F : HmacImpl) (ctx : HmacContext) (inData signature : List UInt8) :
    Except Stop Unit := do
  check (¬ (ctx.begin false).multi) .operationActive
  shaHmacVerify F (ctx.begin false) inData signature

/-- `sign_mgr_sign_update` and `verify_mgr_verify_update`. -/
def hmacMgrUpdate (ctx : HmacContext) (inData : List UInt8) : Except Stop HmacContext := do
  check (ctx.begin true).multi .operationActive
  opensslSpecificHmacUpdate (ctx.begin true) inData

/-- `verify_mgr_verify_final`. -/
def verifyMgrVerifyFinal (F : HmacImpl) (ctx : HmacContext) (signature : List UInt8) :
    Except Stop Unit := do
  check (ctx.multiInit ∧ ctx.multi) .operationActive
  hmacVerifyFinal F ctx signature

/-- `sign_mgr_sign`. -/
def signMgrSign (F : HmacImpl) (ctx : HmacContext) (inData : List UInt8) (out : Out) :
    Except Stop Out := do
  check (¬ (ctx.begin false).multi) .operationActive
  shaHmacSign F (ctx.begin false) inData out

/-- `sign_mgr_sign_final`. -/
def signMgrSignFinal (F : HmacImpl) (ctx : HmacContext) (out : Out) : Except Stop Out := do
  check (ctx.multiInit ∧ ctx.multi) .operationActive
  hmacSignFinal F ctx out

/-! ### The session layer

The context is that of the session, and `none` if there is no active operation. A call that faults
has no result. -/

/-- What a verify function returns, with the context after it. -/
structure VerifyResult where
  rc : CkRv
  ctx : Option HmacContext
  deriving DecidableEq, Repr

/-- The end of `SC_Verify` and `SC_VerifyFinal`: the operation is over. -/
def endOfVerify : Except Stop Unit → Option VerifyResult
  | .error .fault   => none
  | .error (.rc rc) => some ⟨rc, none⟩
  | .ok _           => some ⟨.ok, none⟩

/-- `SC_Verify`. -/
def scVerify (F : HmacImpl) (ctx : Option HmacContext) (data signature : List UInt8) :
    Option VerifyResult :=
  match ctx with
  | none     => some ⟨.operationNotInitialized, none⟩
  | some ctx => endOfVerify (verifyMgrVerify F ctx data signature)

/-- `SC_SignUpdate` and `SC_VerifyUpdate`. -/
def scUpdate (ctx : Option HmacContext) (part : List UInt8) : Option VerifyResult :=
  match ctx with
  | none     => some ⟨.operationNotInitialized, none⟩
  | some ctx =>
    match hmacMgrUpdate ctx part with
    | .error .fault   => none
    | .error (.rc rc) => some ⟨rc, none⟩
    | .ok ctx         => some ⟨.ok, some ctx⟩

/-- `SC_VerifyFinal`. An empty signature is refused, and the operation is not over then. -/
def scVerifyFinal (F : HmacImpl) (ctx : Option HmacContext) (signature : List UInt8) :
    Option VerifyResult :=
  if signature.length = 0 then some ⟨.argumentsBad, ctx⟩
  else
    match ctx with
    | none     => some ⟨.operationNotInitialized, none⟩
    | some ctx => endOfVerify (verifyMgrVerifyFinal F ctx signature)

/-- The end of `SC_Sign` and `SC_SignFinal`: the operation goes on only if the buffer was too small
or if the call asked for the length. -/
def endOfSign (ctx : HmacContext) (out : Out) : Except Stop Out → Option (SignResult HmacContext)
  | .error .fault   => none
  | .error (.rc rc) => some ⟨rc, if rc = .bufferTooSmall then some ctx else none, out⟩
  | .ok out'        => some ⟨.ok, if out.pSignature.isNone then some ctx else none, out'⟩

/-- `SC_Sign`. -/
def scSign (F : HmacImpl) (ctx : Option HmacContext) (data : List UInt8) (out : Out) :
    Option (SignResult HmacContext) :=
  match ctx with
  | none     => some ⟨.operationNotInitialized, none, out⟩
  | some ctx => endOfSign (ctx.begin false) out (signMgrSign F ctx data out)

/-- `SC_SignFinal`. -/
def scSignFinal (F : HmacImpl) (ctx : Option HmacContext) (out : Out) :
    Option (SignResult HmacContext) :=
  match ctx with
  | none     => some ⟨.operationNotInitialized, none, out⟩
  | some ctx => endOfSign ctx out (signMgrSignFinal F ctx out)

/-! ### Whole operations -/

/-- How the data is given: in one call, or in parts. -/
inductive Supply
  | single (data : List UInt8)
  | parts (parts : List (List UInt8))
  deriving DecidableEq, Repr

def Supply.data : Supply → List UInt8
  | .single data => data
  | .parts ps    => ps.flatten

/-- The calls of `SC_SignUpdate` or `SC_VerifyUpdate`, until one of them fails. -/
def scUpdates : Option HmacContext → List (List UInt8) → Option VerifyResult
  | ctx, []          => some ⟨.ok, ctx⟩
  | ctx, part :: parts =>
    (scUpdate ctx part).bind fun r => if r.rc = .ok then scUpdates r.ctx parts else some r

/-- The calls of a verification after the initialization: what the last one returns. -/
def verifyRun (F : HmacImpl) (ctx : HmacContext) (supply : Supply) (signature : List UInt8) :
    Option CkRv :=
  match supply with
  | .single data => (scVerify F (some ctx) data signature).map VerifyResult.rc
  | .parts parts =>
    (scUpdates (some ctx) parts).bind fun r =>
      if r.rc = .ok then (scVerifyFinal F r.ctx signature).map VerifyResult.rc else some r.rc

/-- The last call of a signing operation: `SC_Sign` with the data, or `SC_SignFinal`. -/
def signLast (F : HmacImpl) (ctx : Option HmacContext) (supply : Supply) (out : Out) :
    Option (SignResult HmacContext) :=
  match supply with
  | .single data => scSign F ctx data out
  | .parts _     => scSignFinal F ctx out

/-- The calls of a signing operation after the initialization. -/
def signRun (F : HmacImpl) (ctx : HmacContext) (supply : Supply) (out : Out) :
    Option (SignResult HmacContext) :=
  match supply with
  | .single _    => signLast F (some ctx) supply out
  | .parts parts =>
    (scUpdates (some ctx) parts).bind fun r =>
      if r.rc = .ok then signLast F r.ctx supply out else some ⟨r.rc, r.ctx, out⟩

end OpenCryptoki.Common.Hmac
