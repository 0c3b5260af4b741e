import OpenCryptoki.Lib.Bytes
import OpenCryptoki.Lib.Checked

/-!
# `OpenCryptoki.Common.Pkcs11`: return values, mechanisms, keys and what the token provides

The types that the models of `usr/lib/common` share, on a machine with 64-bit `CK_ULONG`.

A mechanism parameter has the type that its mechanism expects. `CkMechanism m` is a
`CK_MECHANISM` as a caller passes it: the parameter pointer may be `NULL` and the length is
the caller's.

`Token K D` is what lies below the common code: the object map, the policy, and the
functions of `token_specific`. They are arbitrary functions, over an arbitrary type `K` of
key values and an arbitrary type `D` of digest states, and they answer the same question
the same way each time. They fail with a `Failure`, which is not `CKR_OK` and also not
`CKR_BUFFER_TOO_SMALL`: the common code compares the caller's length with the length that
is needed before it calls the token.
-/

set_option autoImplicit false

namespace OpenCryptoki.Common

open Lib

/-- The return values `CKR_...` of the modelled functions. -/
inductive CkRv
  | ok
  | actionProhibited
  | argumentsBad
  | attributeReadOnly
  | attributeSensitive
  | attributeTypeInvalid
  | attributeValueInvalid
  | bufferTooSmall
  | cantLock
  | cryptokiNotInitialized
  | dataInvalid
  | dataLenRange
  | deviceError
  | encryptedDataInvalid
  | encryptedDataLenRange
  | functionCanceled
  | functionFailed
  | functionNotSupported
  | generalError
  | hostMemory
  | keyFunctionNotPermitted
  | keyHandleInvalid
  | keyNeeded
  | keyNotNeeded
  | keyNotWrappable
  | keySizeRange
  | keyTypeInconsistent
  | keyUnextractable
  | mechanismInvalid
  | mechanismParamInvalid
  | objectHandleInvalid
  | operationActive
  | operationNotInitialized
  | pinExpired
  | pinIncorrect
  | pinInvalid
  | pinLenRange
  | pinLocked
  | savedStateInvalid
  | sessionHandleInvalid
  | sessionReadOnly
  | sessionReadOnlyExists
  | sessionReadWriteSoExists
  | signatureInvalid
  | signatureLenRange
  | stateUnsaveable
  | templateIncomplete
  | templateInconsistent
  | tokenWriteProtected
  | userAlreadyLoggedIn
  | userAnotherAlreadyLoggedIn
  | userNotLoggedIn
  | userPinNotInitialized
  | userTypeInvalid
  | wrappedKeyInvalid
  | wrappedKeyLenRange
  | wrappingKeyHandleInvalid
  deriving DecidableEq, Repr

/-- An error of the token. -/
def Failure : Type := { rc : CkRv // rc ≠ .ok ∧ rc ≠ .bufferTooSmall }

def Failure.rc (f : Failure) : CkRv := f.1

/-- A failure is not `CKR_OK`. -/
theorem Failure.rc_ne_ok (f : Failure) : f.rc ≠ .ok := f.2.1

/-- A failure is not `CKR_BUFFER_TOO_SMALL`. -/
theorem Failure.rc_ne_bufferTooSmall (f : Failure) : f.rc ≠ .bufferTooSmall := f.2.2

/-- What a function with the output parameters `out_data` and `out_data_len` returns, with the
memory after it. -/
structure MemResult where
  rc : CkRv
  mem : Buf
  outDataLen : Nat

def ULONG_MAX : Nat := 2 ^ 64 - 1

def INT_MAX : Nat := 2 ^ 31 - 1

def ulongAdd (a b : Nat) : Nat := (a + b) % 2 ^ 64
def ulongMul (a b : Nat) : Nat := a * b % 2 ^ 64

/-- `a - b` in `CK_ULONG`, which wraps around. -/
def ulongSub (a b : Nat) : Nat := (a + 2 ^ 64 - b) % 2 ^ 64

/-- Why a function has stopped: a fault, or a return value. -/
abbrev Stop := Halt CkRv

/-- A return value other than `CKR_OK`. -/
def ErrorRv : Type := { rc : CkRv // rc ≠ .ok }

def ErrorRv.rc (e : ErrorRv) : CkRv := e.1

/-- An error is not `CKR_OK`. -/
theorem ErrorRv.rc_ne_ok (e : ErrorRv) : e.rc ≠ .ok := e.2

/-- The session states `CKS_...`. -/
inductive CkState
  | roPublicSession
  | roUserFunctions
  | rwPublicSession
  | rwUserFunctions
  | rwSoFunctions
  deriving DecidableEq, Repr

/-- Go on with what a function of the token gives. -/
def orReturn {α : Type} : Except Failure α → Except Stop α
  | .error f => .error (.rc f.rc)
  | .ok a    => .ok a

/-- Go on if the condition holds, and fail with `rc` otherwise. -/
def require (p : Prop) [Decidable p] (rc : CkRv) : Except CkRv Unit :=
  if p then .ok () else .error rc

/-- A required condition passes exactly when it holds. -/
theorem require_eq_ok {p : Prop} [Decidable p] {rc : CkRv} : require p rc = .ok () ↔ p := by
  rw [require]
  split
  · exact iff_of_true rfl ‹p›
  · exact iff_of_false nofun ‹¬ p›

/-- The same for any value of `Unit`. -/
theorem require_eq_ok_iff {p : Prop} [Decidable p] {rc : CkRv} {u : Unit} :
    require p rc = .ok u ↔ p := require_eq_ok

/-! ### Mechanisms -/

def AES_BLOCK_SIZE : Nat := 16
def DES_BLOCK_SIZE : Nat := 8

/-- `CKM_AES_MAC`, `CKM_AES_MAC_GENERAL`, `CKM_DES3_MAC` and `CKM_DES3_MAC_GENERAL`. -/
inductive MacMechanism
  | aesMac
  | aesMacGeneral
  | des3Mac
  | des3MacGeneral
  deriving DecidableEq, Repr

def MacMechanism.blockSize : MacMechanism → Nat
  | .aesMac | .aesMacGeneral   => AES_BLOCK_SIZE
  | .des3Mac | .des3MacGeneral => DES_BLOCK_SIZE

def MacMechanism.isGeneral : MacMechanism → Bool
  | .aesMacGeneral | .des3MacGeneral => true
  | .aesMac | .des3Mac               => false

/-- The digest mechanisms that a signature mechanism is combined with. `CKM_MD2` is not
compiled in. -/
inductive DigestMechanism
  | md5
  | sha1
  | sha224
  | sha256
  | sha384
  | sha512
  | sha3_224
  | sha3_256
  | sha3_384
  | sha3_512
  deriving DecidableEq, Repr

/-- `get_sha_size`. -/
def getShaSize : DigestMechanism → Nat
  | .md5               => 16
  | .sha1              => 20
  | .sha224 | .sha3_224 => 28
  | .sha256 | .sha3_256 => 32
  | .sha384 | .sha3_384 => 48
  | .sha512 | .sha3_512 => 64

def MAX_SHA_HASH_SIZE : Nat := 64

/-- The signature mechanisms: the MACs, the two RSA mechanisms on given data
(`CKM_RSA_PKCS`, `CKM_RSA_PKCS_PSS`), and the RSA mechanisms with a digest
(`CKM_SHA256_RSA_PKCS`, `CKM_SHA256_RSA_PKCS_PSS` and so on). There is no PSS mechanism
with MD5. -/
inductive Mechanism
  | mac (m : MacMechanism)
  | rsaPkcs
  | rsaPkcsPss
  | hashRsaPkcs (d : DigestMechanism)
  | hashRsaPkcsPss (d : DigestMechanism) (h : d ≠ .md5)
  deriving DecidableEq

/-- `CK_RSA_PKCS_PSS_PARAMS`. The mask generation function is named by its digest. -/
structure PssParams where
  hashAlg : DigestMechanism
  mgf : DigestMechanism
  sLen : Nat
  deriving DecidableEq, Repr

/-- The type that the parameter pointer of a mechanism points to. -/
def ParamOf : Mechanism → Type
  | .mac _                                => Nat
  | .rsaPkcsPss | .hashRsaPkcsPss _ _     => PssParams
  | .rsaPkcs | .hashRsaPkcs _             => Unit

/-- `CK_MECHANISM`. -/
structure CkMechanism (m : Mechanism) where
  pParameter : Option (ParamOf m)
  ulParameterLen : Nat

def SIZEOF_CK_MAC_GENERAL_PARAMS : Nat := 8
def SIZEOF_CK_RSA_PKCS_PSS_PARAMS : Nat := 24

/-- A MAC length that passes the check of `sign_mgr_init` and `verify_mgr_init`. -/
def MacLen (bs : Nat) : Type := { n : Nat // 1 ≤ n ∧ n ≤ bs }

/-! ### Keys and the token -/

def CKO_PRIVATE_KEY : Nat := 3
def CKK_RSA : Nat := 0

/-- The attributes of a key that the modelled functions read, and its value. An attribute
that is missing is `none`. `modulus` is the length of `CKA_MODULUS`. -/
structure KeyObject (K : Type) where
  cls : Option Nat
  keyType : Option Nat
  sign : Option Bool
  signRecover : Option Bool
  verify : Option Bool
  verifyRecover : Option Bool
  isPrivate : Option Bool
  alwaysAuthenticate : Option Bool
  modulus : Option Nat
  allowedMechanisms : List Mechanism
  value : K

/-- `key_object_is_mechanism_allowed`. -/
def KeyObject.isMechanismAllowed {K : Type} (obj : KeyObject K) (m : Mechanism) : Bool :=
  obj.allowedMechanisms.isEmpty || obj.allowedMechanisms.contains m

/-- `key_object_is_always_authenticate`. -/
def KeyObject.isAlwaysAuthenticate {K : Type} (obj : KeyObject K) : Except CkRv Bool :=
  match obj.cls with
  | none => .error .templateIncomplete
  | some cls =>
    if cls ≠ CKO_PRIVATE_KEY then .ok false
    else match obj.isPrivate with
      | none       => .error .templateIncomplete
      | some false => .ok false
      | some true  =>
        -- A key without the attribute is not one that always authenticates.
        match obj.alwaysAuthenticate with
        | none      => .ok false
        | some auth => .ok auth

/-- `template_attribute_get_non_empty` of `CKA_MODULUS`: the length of the value. -/
def KeyObject.modulusLen {K : Type} (obj : KeyObject K) : Except CkRv Nat :=
  match obj.modulus with
  | none         => .error .templateIncomplete
  | some 0       => .error .attributeValueInvalid
  | some (n + 1) => .ok (n + 1)

/-- `template_attribute_get_ulong` and `template_attribute_get_bool`. -/
def getAttribute {α : Type} : Option α → Except CkRv α
  | none   => .error .templateIncomplete
  | some a => .ok a

/-- What a policy is asked: `POLICY_CHECK_SIGNATURE` or `POLICY_CHECK_VERIFY`. -/
inductive PolicyCheck
  | signature
  | verify

/-- What the common code calls. The MAC functions update the chaining value, also when they
fail. `tRsaSign` and `tRsaPssSign` may be `NULL`; the second one is given the random bytes
of the salt. -/
structure Token (K D : Type) where
  initialized : Bool
  pinExpired : Bool
  validMech : Mechanism → Bool
  isMechAllowed : PolicyCheck → Mechanism → KeyObject K → Except Failure Unit
  findInMap : Nat → Except Failure (KeyObject K)
  tAesMac : K → List UInt8 → Vector UInt8 AES_BLOCK_SIZE →
    Option Failure × Vector UInt8 AES_BLOCK_SIZE
  tTdesMac : K → List UInt8 → Vector UInt8 DES_BLOCK_SIZE →
    Option Failure × Vector UInt8 DES_BLOCK_SIZE
  hashInit : DigestMechanism → Except Failure D
  hash : DigestMechanism → D → List UInt8 → Except Failure (List UInt8)
  hashUpdate : DigestMechanism → D → List UInt8 → Except Failure D
  hashFinal : DigestMechanism → D → Except Failure (List UInt8)
  tRsaSign : Option (K → List UInt8 → Except Failure (List UInt8))
  tRsaPssSign : Option (K → PssParams → List UInt8 → List UInt8 → Except Failure (List UInt8))

/-- The value that a caller of `object_mgr_find_in_map1` returns for a failed lookup of a
key. -/
def keyLookupRv (f : Failure) : CkRv :=
  if f.rc = .objectHandleInvalid then .keyHandleInvalid else f.rc

/-- `SIGN_VERIFY_CONTEXT` of an operation that is active, with a checked parameter of type
`P` and a work area of type `C`. After `sign_mgr_cleanup` or `verify_mgr_cleanup` there is no
such context. -/
structure SignVerifyContext (P C : Type) where
  key : Nat
  param : P
  ulParameterLen : Nat
  context : C
  multi : Bool
  multiInit : Bool
  recover : Bool
  authRequired : Bool

section
variable {K D : Type}

/-- The lookup of the key in `sign_mgr_init` and `verify_mgr_init`. -/
def lookupKey (tok : Token K D) (key : Nat) : Except CkRv (KeyObject K) :=
  match tok.findInMap key with
  | .error f => .error (keyLookupRv f)
  | .ok obj  => .ok obj

/-- The question to the policy in `sign_mgr_init` and `verify_mgr_init`. -/
def checkPolicy (tok : Token K D) (check : PolicyCheck) (checkpolicy : Bool) (m : Mechanism)
    (obj : KeyObject K) : Except CkRv Unit :=
  if checkpolicy then
    match tok.isMechAllowed check m obj with
    | .error f => .error f.rc
    | .ok ()   => .ok ()
  else .ok ()

end

/-- The parameter check for the MAC mechanisms in `sign_mgr_init` and `verify_mgr_init`: only
the `_GENERAL` forms take a parameter, which is then at most a block. -/
def checkMacParam (m : MacMechanism) (mech : CkMechanism (.mac m)) :
    Except CkRv (Option (MacLen m.blockSize)) :=
  match mech.pParameter with
  | none => .ok none
  | some (n : Nat) =>
    if mech.ulParameterLen ≠ SIZEOF_CK_MAC_GENERAL_PARAMS then .error .mechanismParamInvalid
    else if m.isGeneral then
      if h : n < 1 ∨ n > m.blockSize then .error .mechanismParamInvalid
      else .ok (some ⟨n, by omega⟩)
    else .error .mechanismParamInvalid

end OpenCryptoki.Common
