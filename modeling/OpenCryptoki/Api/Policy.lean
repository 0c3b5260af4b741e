import Mathlib.Data.UInt
import Mathlib.Algebra.Order.Ring.Nat

/-!
# `OpenCryptoki.Api.Policy`: key sizes and strengths in a policy

The model of the parts of `usr/lib/api/policy.c` that decide on key sizes: how a strength
configuration is loaded (`policyLoadStrengthCfg`), how the required strength becomes an index
(`minstrengthidx`), how a key is accepted (`policyStoreObjectStrength`), and how the key sizes of a
mechanism are adjusted (`policyUpdateMechInfo`).

Levels are numbered from the strongest to the weakest one, and `NUM_SUPPORTED_STRENGTHS` stands for
no level at all. `CK_ULONG` is `UInt64`.

`Mechanism` has the mechanisms that use symmetric, modular-exponentiation or elliptic-curve keys.
What `hashmap_find` reports for a mechanism is a field of the policy, and the check of the signature
size, which does not read the smallest key size, is a parameter.
-/

set_option autoImplicit false

namespace OpenCryptoki.Api

/-! ### Strength configuration -/

def NUM_SUPPORTED_STRENGTHS : Nat := 4

/-- `supportedstrengths`. -/
def supportedstrengths : List UInt64 := [256, 192, 128, 112]

/-- `COMPARE_MODEXP`, `COMPARE_ECC` and `COMPARE_SYMMETRIC`. -/
inductive CompareTarget
  | modexp
  | ecc
  | symmetric
  deriving DecidableEq, Repr

/-- `struct strength`. -/
structure Strength where
  modexp : UInt64
  ecc : UInt64
  symmetric : UInt64
  digests : UInt64
  signatures : UInt64
  set : Bool
  deriving DecidableEq, Repr

/-- `strength.arr[ct]`. -/
def Strength.arr (s : Strength) : CompareTarget → UInt64
  | .modexp    => s.modexp
  | .ecc       => s.ecc
  | .symmetric => s.symmetric

/-- An element of a structure in a configuration file: an integer, or something else. -/
inductive ConfigElem
  | intval (key : String) (value : UInt64)
  | other (key : String)
  deriving DecidableEq, Repr

def ConfigElem.key : ConfigElem → String
  | .intval key _ => key
  | .other key    => key

/-- An element of a configuration file. -/
inductive ConfigNode
  | fileversion (accepted : Bool)
  | idxstruct (key : String) (idx : UInt64) (value : List ConfigElem)
  | other (key : String)
  deriving DecidableEq, Repr

/-- Set `flags` of the first element that meets the condition. -/
def markFirst {α : Type} (p : α → Bool) : List (α × Bool) → List (α × Bool)
  | []      => []
  | x :: xs => if p x.1 then (x.1, true) :: xs else x :: markFirst p xs

/-- `policy_check_unmarked`. -/
def policyCheckUnmarked {α : Type} (l : List (α × Bool)) : Bool := l.all Prod.snd

/-- `policy_extract_strength_key`: the value, and the elements with their flags. -/
def policyExtractStrengthKey (sd : List (ConfigElem × Bool)) (key : String) :
    Option (UInt64 × List (ConfigElem × Bool)) :=
  match sd.find? fun e => e.1.key == key with
  | none                  => some (0xffffffff, sd)
  | some (.other _, _)    => none
  | some (.intval _ v, _) => some (v, markFirst (fun e => e.key == key) sd)

/-- The turn of the loop of `policy_load_strength_cfg` for a level that the file has. -/
def loadStrength (value : List ConfigElem) : Option Strength := do
  let (modexp, sd) ← policyExtractStrengthKey (value.map fun e => (e, false)) "MOD_EXP"
  let (ecc, sd) ← policyExtractStrengthKey sd "ECC"
  let (symmetric, sd) ← policyExtractStrengthKey sd "SYMMETRIC"
  let (digests, sd) ← policyExtractStrengthKey sd "digest"
  let (signatures, sd) ← policyExtractStrengthKey sd "signature"
  if policyCheckUnmarked sd then
    some { modexp, ecc, symmetric, digests, signatures, set := true }
  else none

/-- `confignode_findidx` for the level with the given strength. -/
def ConfigNode.isStrength (idx : UInt64) : ConfigNode → Bool
  | .idxstruct key i _ => key == "strength" && i == idx
  | _                  => false

/-- The loop of `policy_load_strength_cfg`. A level that is not in the file keeps the zeroes of
`policy_private_alloc`. -/
def loadStrengths : List UInt64 → List (ConfigNode × Bool) →
    Option (List Strength × List (ConfigNode × Bool))
  | [], cfg                => some ([], cfg)
  | strength :: levels, cfg =>
    match cfg.find? fun n => n.1.isStrength strength with
    | some (.idxstruct _ _ value, _) => do
      let s ← loadStrength value
      let (ss, cfg) ← loadStrengths levels (markFirst (ConfigNode.isStrength strength) cfg)
      return (s :: ss, cfg)
    | _                              => do
      let (ss, cfg) ← loadStrengths levels cfg
      return ({ modexp := 0, ecc := 0, symmetric := 0, digests := 0, signatures := 0,
                set := false } :: ss, cfg)

/-- `policy_load_strength_cfg`: the levels, or `none` if the file is refused. The first element of
the file has to be its version. -/
def policyLoadStrengthCfg (cfg : List ConfigNode) : Option (List Strength) :=
  match cfg with
  | .fileversion true :: rest => do
    let (ss, cfg) ← loadStrengths supportedstrengths
      ((.fileversion true, true) :: rest.map fun n => (n, false))
    if policyCheckUnmarked cfg then some ss else none
  | _                         => none

/-- The loop of `policy_load_policy_cfg` that looks up the required strength, at the level `i`. -/
def strengthIdx (reqstrength : UInt64) : List UInt64 → Nat → Nat
  | [], i          => i
  | s :: levels, i =>
    if reqstrength = s then i
    else if reqstrength > s then (if i > 0 then i - 1 else i)
    else strengthIdx reqstrength levels (i + 1)

/-- `policy_load_policy_cfg`: the index of the required strength. -/
def minstrengthidx (reqstrength : UInt64) : Nat :=
  let i := strengthIdx reqstrength supportedstrengths 0
  if i = NUM_SUPPORTED_STRENGTHS ∧ reqstrength > 0 then i - 1 else i

/-! ### Mechanisms -/

/-- The mechanisms with keys of a size that the policy looks at. -/
inductive Mechanism
  | aesCbc | aesCbcPad | aesCfb128 | aesCfb64 | aesCfb8 | aesCmac | aesCmacGeneral | aesCtr
  | aesEcb | aesGcm | aesXts | aesKeyGen | aesXtsKeyGen | aesMac | aesMacGeneral | aesOfb
  | aesKeyWrap | aesKeyWrapPad | aesKeyWrapKwp | aesKeyWrapPkcs7 | ibmCmac | sha1KeyDerivation
  | sha224KeyDerivation | sha256KeyDerivation | sha384KeyDerivation | sha512KeyDerivation
  | sha512_224KeyDerivation | sha512_256KeyDerivation | sha3_224KeyDerivation
  | sha3_256KeyDerivation | sha3_384KeyDerivation | sha3_512KeyDerivation | shake128KeyDerivation
  | shake256KeyDerivation | ssl3MasterKeyDerive | ssl3PreMasterKeyGen | tlsPreMasterKeyGen
  | desKeyGen | desCbc | desCbcPad | desCfb64 | desCfb8 | desEcb | desOfb64
  | des2KeyGen
  | des3KeyGen | des3Cbc | des3CbcPad | des3Cmac | des3CmacGeneral | des3Ecb | des3Mac
  | des3MacGeneral
  | dhPkcsDerive | dhPkcsKeyPairGen | dhPkcsParameterGen | dsa | dsaKeyPairGen | dsaParameterGen
  | dsaSha1 | md5RsaPkcs | rsaPkcs | rsaPkcsKeyPairGen | rsaPkcsOaep | rsaPkcsPss | rsaX509
  | rsaX9_31 | rsaX9_31KeyPairGen | sha1RsaPkcs | sha1RsaPkcsPss | sha1RsaX9_31 | sha224RsaPkcs
  | sha224RsaPkcsPss | sha256RsaPkcs | sha256RsaPkcsPss | sha384RsaPkcs | sha384RsaPkcsPss
  | sha512RsaPkcs | sha512RsaPkcsPss | sha3_224RsaPkcs | sha3_224RsaPkcsPss | sha3_256RsaPkcs
  | sha3_256RsaPkcsPss | sha3_384RsaPkcs | sha3_384RsaPkcsPss | sha3_512RsaPkcs | sha3_512RsaPkcsPss
  | rsaAesKeyWrap
  | ecdh1Derive | ecdh1CofactorDerive | ecdsa | ecKeyPairGen | ecEdwardsKeyPairGen
  | ecMontgomeryKeyPairGen | ecdsaSha1 | ecdsaSha224 | ecdsaSha256 | ecdsaSha384 | ecdsaSha512
  | ecdsaSha3_224 | ecdsaSha3_256 | ecdsaSha3_384 | ecdsaSha3_512 | ibmEcC25519 | ibmEcC448
  | ibmEd25519Sha512 | ibmEd448Sha3 | ibmEcdsaOther | ibmBtcDerive | ibmEthDerive | ecdhAesKeyWrap
  | ecdhCofAesKeyWrap | ecdhXAesKeyWrap | ibmEcAggregate | eddsa
  | genericSecretKeyGen | sha1KeyGen | sha224KeyGen | sha256KeyGen | sha384KeyGen | sha512KeyGen
  | sha512_224KeyGen | sha512_256KeyGen | sha3_224KeyGen | sha3_256KeyGen | sha3_384KeyGen
  | sha3_512KeyGen | ssl3Md5Mac | ssl3Sha1Mac

/-- The branches of the `switch` in `policy_update_mech_info`. -/
inductive MechKind
  | symmetricBytes (isaesxts : Bool)
  | symmetricBits
  | des (size : UInt64)
  | modexp
  | ec
  deriving DecidableEq, Repr

/-- The branch of the `switch` in `policy_update_mech_info` for a mechanism. -/
def Mechanism.kind : Mechanism → MechKind
  | .aesCbc | .aesCbcPad | .aesCfb128 | .aesCfb64 | .aesCfb8 | .aesCmac | .aesCmacGeneral
  | .aesCtr | .aesEcb | .aesGcm | .aesKeyGen | .aesMac | .aesMacGeneral | .aesOfb | .aesKeyWrap
  | .aesKeyWrapPad | .aesKeyWrapKwp | .aesKeyWrapPkcs7 | .ibmCmac | .sha1KeyDerivation
  | .sha224KeyDerivation | .sha256KeyDerivation | .sha384KeyDerivation | .sha512KeyDerivation
  | .sha512_224KeyDerivation | .sha512_256KeyDerivation | .sha3_224KeyDerivation
  | .sha3_256KeyDerivation | .sha3_384KeyDerivation | .sha3_512KeyDerivation
  | .shake128KeyDerivation | .shake256KeyDerivation | .ssl3MasterKeyDerive | .ssl3PreMasterKeyGen
  | .tlsPreMasterKeyGen =>
    .symmetricBytes false
  | .aesXts | .aesXtsKeyGen =>
    .symmetricBytes true
  | .desKeyGen | .desCbc | .desCbcPad | .desCfb64 | .desCfb8 | .desEcb | .desOfb64 =>
    .des 56
  | .des2KeyGen =>
    .des 80
  | .des3KeyGen | .des3Cbc | .des3CbcPad | .des3Cmac | .des3CmacGeneral | .des3Ecb | .des3Mac
  | .des3MacGeneral =>
    .des 112
  | .dhPkcsDerive | .dhPkcsKeyPairGen | .dhPkcsParameterGen | .dsa | .dsaKeyPairGen
  | .dsaParameterGen | .dsaSha1 | .md5RsaPkcs | .rsaPkcs | .rsaPkcsKeyPairGen | .rsaPkcsOaep
  | .rsaPkcsPss | .rsaX509 | .rsaX9_31 | .rsaX9_31KeyPairGen | .sha1RsaPkcs | .sha1RsaPkcsPss
  | .sha1RsaX9_31 | .sha224RsaPkcs | .sha224RsaPkcsPss | .sha256RsaPkcs | .sha256RsaPkcsPss
  | .sha384RsaPkcs | .sha384RsaPkcsPss | .sha512RsaPkcs | .sha512RsaPkcsPss | .sha3_224RsaPkcs
  | .sha3_224RsaPkcsPss | .sha3_256RsaPkcs | .sha3_256RsaPkcsPss | .sha3_384RsaPkcs
  | .sha3_384RsaPkcsPss | .sha3_512RsaPkcs | .sha3_512RsaPkcsPss | .rsaAesKeyWrap =>
    .modexp
  | .ecdh1Derive | .ecdh1CofactorDerive | .ecdsa | .ecKeyPairGen | .ecEdwardsKeyPairGen
  | .ecMontgomeryKeyPairGen | .ecdsaSha1 | .ecdsaSha224 | .ecdsaSha256 | .ecdsaSha384 | .ecdsaSha512
  | .ecdsaSha3_224 | .ecdsaSha3_256 | .ecdsaSha3_384 | .ecdsaSha3_512 | .ibmEcC25519 | .ibmEcC448
  | .ibmEd25519Sha512 | .ibmEd448Sha3 | .ibmEcdsaOther | .ibmBtcDerive | .ibmEthDerive
  | .ecdhAesKeyWrap | .ecdhCofAesKeyWrap | .ecdhXAesKeyWrap | .ibmEcAggregate | .eddsa =>
    .ec
  | .genericSecretKeyGen | .sha1KeyGen | .sha224KeyGen | .sha256KeyGen | .sha384KeyGen
  | .sha512KeyGen | .sha512_224KeyGen | .sha512_256KeyGen | .sha3_224KeyGen | .sha3_256KeyGen
  | .sha3_384KeyGen | .sha3_512KeyGen | .ssl3Md5Mac | .ssl3Sha1Mac =>
    .symmetricBits

/-! ### The policy -/

/-- An entry of `der_ec_supported`. -/
structure Curve where
  data : List UInt8
  primeBits : UInt64
  deriving DecidableEq, Repr

/-- `struct policy_private`. No list of curves means that all are allowed. -/
structure PolicyPrivate where
  allowedmechs : Mechanism → Bool
  allowedcurves : Option (List Curve)
  minstrengthidx : Nat
  strengths : List Strength

/-- Element `i` of `pp->strengths`. -/
def PolicyPrivate.level (pp : PolicyPrivate) (i : Nat) : Option Strength :=
  (pp.strengths[i]?).filter Strength.set

/-- `policy_compute_strength` for a key with a size: the first level that it meets. -/
def policyComputeStrength (pp : PolicyPrivate) (size : UInt64) (ct : CompareTarget) : Nat :=
  ((List.range NUM_SUPPORTED_STRENGTHS).find? fun i =>
    (pp.level i).any fun s => decide (size ≥ s.arr ct)).getD NUM_SUPPORTED_STRENGTHS

/-- `policy_check_ec_allowed`. -/
def policyCheckEcAllowed (pp : PolicyPrivate) (oid : List UInt8) : Bool :=
  match pp.allowedcurves with
  | none        => true
  | some curves => curves.any fun c => c.data == oid

/-- The attributes of a key that `policy_extract_key_data` reads. -/
inductive KeyData
  | rsa (modulusLen : UInt64)
  | dsa (primeLen : UInt64)
  | dh (primeLen : UInt64)
  | x942Dh (primeLen : UInt64)
  | ec (curve : Curve)
  | des
  | des2
  | des3
  | aes (valueLen : UInt64)
  | aesXts (valueLen : UInt64)
  | genericSecret (valueLen : UInt64)

/-- `policy_extract_key_data`: the compare target, the size and the curve. -/
def policyExtractKeyData : KeyData → CompareTarget × UInt64 × List UInt8
  | .rsa modulusLen         => (.modexp, modulusLen * 8, [])
  | .dsa primeLen           => (.modexp, primeLen * 8, [])
  | .dh primeLen            => (.modexp, primeLen * 8, [])
  | .x942Dh primeLen        => (.modexp, primeLen * 8, [])
  | .ec curve               => (.ecc, curve.primeBits, curve.data)
  | .des                    => (.symmetric, 56, [])
  | .des2                   => (.symmetric, 80, [])
  | .des3                   => (.symmetric, 112, [])
  | .aes valueLen           => (.symmetric, valueLen * 8, [])
  | .aesXts valueLen        => (.symmetric, valueLen * 8 / 2, [])
  | .genericSecret valueLen => (.symmetric, valueLen * 8, [])

/-- `policy_is_key_allowed_i`. -/
def policyIsKeyAllowedI (pp : PolicyPrivate) (strength : Nat) (allowed : Bool) : Bool :=
  if strength > pp.minstrengthidx then false
  else allowed

/-- `policy_store_object_strength`: whether the key is accepted. -/
def policyStoreObjectStrength (pp : PolicyPrivate) (key : KeyData) : Bool :=
  let (ct, size, oid) := policyExtractKeyData key
  let allowed := if ct = .ecc then policyCheckEcAllowed pp oid else true
  policyIsKeyAllowedI pp (policyComputeStrength pp size ct) allowed

/-! ### Mechanism information -/

/-- `CK_MECHANISM_INFO`. -/
structure MechanismInfo where
  ulMinKeySize : UInt64
  ulMaxKeySize : UInt64
  flags : UInt64
  deriving DecidableEq, Repr

/-- The end of `policy_update_modexp`, `policy_update_symmetric` and `policy_update_ec`: `none`
stands for `CKR_MECHANISM_INVALID`. -/
def updateMinsize (minsize : UInt64) (info : MechanismInfo) : Option MechanismInfo :=
  if minsize > info.ulMaxKeySize then none
  else if minsize > info.ulMinKeySize then some { info with ulMinKeySize := minsize }
  else some info

/-- The level of the required strength, if there is one and the configuration has it. -/
def PolicyPrivate.required (pp : PolicyPrivate) : Option Strength :=
  if pp.minstrengthidx < NUM_SUPPORTED_STRENGTHS then pp.level pp.minstrengthidx else none

/-- `policy_update_modexp`. -/
def policyUpdateModexp (pp : PolicyPrivate) (info : MechanismInfo) : Option MechanismInfo :=
  match pp.required with
  | some s => updateMinsize s.modexp info
  | none   => some info

/-- The smallest size in `policy_update_symmetric`. -/
def symmetricMinsize (symmetric : UInt64) (isbytes isaesxts : Bool) : UInt64 :=
  let minsize := if isbytes then symmetric / 8 else symmetric
  if isaesxts then minsize * 2 else minsize

/-- `policy_update_symmetric`. -/
def policyUpdateSymmetric (pp : PolicyPrivate) (info : MechanismInfo) (isbytes isaesxts : Bool) :
    Option MechanismInfo :=
  match pp.required with
  | some s => updateMinsize (symmetricMinsize s.symmetric isbytes isaesxts) info
  | none   => some info

/-- `policy_update_ec`. -/
def policyUpdateEc (pp : PolicyPrivate) (info : MechanismInfo) : Option MechanismInfo :=
  if pp.allowedcurves = some [] then none
  else
    match pp.required with
    | some s => updateMinsize s.ecc info
    | none   => some info

def CKF_HW : UInt64 := 0x1
def CKF_SIGN : UInt64 := 0x800
def CKF_SIGN_RECOVER : UInt64 := 0x1000
def CKF_VERIFY : UInt64 := 0x2000
def CKF_VERIFY_RECOVER : UInt64 := 0x4000
def CKF_EC_F_P : UInt64 := 0x100000
def CKF_EC_F_2M : UInt64 := 0x200000
def CKF_EC_ECPARAMETERS : UInt64 := 0x400000
def CKF_EC_OID : UInt64 := 0x800000
def CKF_EC_NAMEDCURVE : UInt64 := CKF_EC_OID
def CKF_EC_UNCOMPRESS : UInt64 := 0x1000000
def CKF_EC_COMPRESS : UInt64 := 0x2000000
def CKF_EC_CURVENAME : UInt64 := 0x4000000
def CKF_EXTENSION : UInt64 := 0x80000000

/-- The flags without those for signatures. -/
def withoutSignFlags (flags : UInt64) : UInt64 :=
  flags &&& ~~~(CKF_SIGN ||| CKF_SIGN_RECOVER ||| CKF_VERIFY ||| CKF_VERIFY_RECOVER)

/-- The flags that do not stand for a feature. -/
def noFeature : UInt64 :=
  CKF_HW ||| CKF_EC_F_P ||| CKF_EC_F_2M ||| CKF_EC_ECPARAMETERS ||| CKF_EC_OID |||
    CKF_EC_NAMEDCURVE ||| CKF_EC_COMPRESS ||| CKF_EC_UNCOMPRESS ||| CKF_EC_CURVENAME |||
    CKF_EXTENSION

/-- The end of `policy_update_mech_info`. The argument `sigOk` is the result of
`policy_check_signature_size`. -/
def updateFlags (sigOk : Bool) (info : MechanismInfo) : Option MechanismInfo :=
  if sigOk then some info
  else
    let info := { info with flags := withoutSignFlags info.flags }
    if info.flags &&& ~~~noFeature = 0 then none else some info

/-- The `switch` of `policy_update_mech_info`. -/
def updateSizes (pp : PolicyPrivate) (kind : MechKind) (info : MechanismInfo) :
    Option MechanismInfo :=
  match kind with
  | .symmetricBytes isaesxts => policyUpdateSymmetric pp info true isaesxts
  | .symmetricBits           => policyUpdateSymmetric pp info false false
  | .des size                =>
    if policyIsKeyAllowedI pp (policyComputeStrength pp size .symmetric) true then some info
    else none
  | .modexp                  => policyUpdateModexp pp info
  | .ec                      => policyUpdateEc pp info

/-- `policy_update_mech_info`. `checkSig` is `policy_check_signature_size`, which reads the largest
key size and the flags. -/
def policyUpdateMechInfo (checkSig : PolicyPrivate → Mechanism → UInt64 → UInt64 → Bool)
    (pp : PolicyPrivate) (mech : Mechanism) (info : MechanismInfo) : Option MechanismInfo :=
  if pp.allowedmechs mech = false then none
  else
    match updateSizes pp mech.kind info with
    | none      => none
    | some info => updateFlags (checkSig pp mech info.ulMaxKeySize info.flags) info

end OpenCryptoki.Api
