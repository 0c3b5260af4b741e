import OpenCryptoki.Common.Asn1

/-!
# `OpenCryptoki.Common.Asn1Keys`: BER coding of RSA, DSA and EC keys

The model of the functions in `usr/lib/common/asn1.c` that decode private and public RSA, DSA and
EC keys and that encode the private ones, with `build_attribute` of `utility.c`. The object
identifiers are those of `globals.c`.

The functions that decode an RSA or a DSA key go over their integers twice: once to check them and
once to build the attributes. Both passes are loops here, over the number of integers and over the
types of the attributes.
-/

set_option autoImplicit false

namespace OpenCryptoki.Common

open Lib

/-! ### Object identifiers -/

def berIdDsa : List UInt8 := [0x06, 0x07, 0x2a, 0x86, 0x48, 0xce, 0x38, 0x04, 0x01]

def berIdEc : List UInt8 := [0x06, 0x07, 0x2a, 0x86, 0x48, 0xce, 0x3d, 0x02, 0x01]

def berRsaEncryption : List UInt8 :=
  [0x06, 0x09, 0x2a, 0x86, 0x48, 0x86, 0xf7, 0x0d, 0x01, 0x01, 0x01]

def berAlgIdRsaEncryption : List UInt8 :=
  [0x30, 0x0D, 0x06, 0x09, 0x2a, 0x86, 0x48, 0x86, 0xf7, 0x0d, 0x01, 0x01, 0x01, 0x05, 0x00]

def derAlgIdEcBase : List UInt8 :=
  [0x30, 0x09, 0x06, 0x07, 0x2A, 0x86, 0x48, 0xCE, 0x3D, 0x02, 0x01]

/-- `memcmp` of the data at `ptr` with `bytes`: if they are the same. It reads all of them. -/
def memcmpAt (mem : List UInt8) (ptr : Nat) (bytes : List UInt8) : Except Stop Bool := do
  let data ← access (readAt mem ptr bytes.length)
  .ok (data == bytes)

/-! ### Attributes -/

def CKA_VALUE : Nat := 0x00000011
def CKA_MODULUS : Nat := 0x00000120
def CKA_PUBLIC_EXPONENT : Nat := 0x00000122
def CKA_PRIVATE_EXPONENT : Nat := 0x00000123
def CKA_PRIME_1 : Nat := 0x00000124
def CKA_PRIME_2 : Nat := 0x00000125
def CKA_EXPONENT_1 : Nat := 0x00000126
def CKA_EXPONENT_2 : Nat := 0x00000127
def CKA_COEFFICIENT : Nat := 0x00000128
def CKA_PRIME : Nat := 0x00000130
def CKA_SUBPRIME : Nat := 0x00000131
def CKA_BASE : Nat := 0x00000132

/-- An attribute of a key: its type and its value. -/
structure KeyAttribute where
  type : Nat
  value : List UInt8
  deriving DecidableEq, Repr

/-- `build_attribute` of data that `ptr` points to. -/
def buildAttribute (mem : List UInt8) (type ptr len : Nat) : Except Stop KeyAttribute := do
  let value ← access (readAt mem ptr len)
  .ok ⟨type, value⟩

/-! ### Sequences of integers -/

/-- `n` integers in `buf` from `offset` on: the offset behind them. -/
def skipIntegers (mem : List UInt8) (buf bufLen : Nat) : Nat → Nat → Except Stop Nat
  | 0, offset => .ok offset
  | n + 1, offset => do
    let field ← berDecodeINTEGER mem (buf + offset) (ulongSub bufLen offset)
    skipIntegers mem buf bufLen n (offset + field.fieldLen)

/-- An attribute of each of the types, from the integers in `buf` from `offset` on. -/
def buildIntegers (mem : List UInt8) (buf bufLen : Nat) :
    List Nat → Nat → Except Stop (List KeyAttribute)
  | [], _ => .ok []
  | type :: types, offset => do
    let field ← berDecodeINTEGER mem (buf + offset) (ulongSub bufLen offset)
    let attr ← buildAttribute mem type field.data field.dataLen
    let attrs ← buildIntegers mem buf bufLen types (offset + field.fieldLen)
    .ok (attr :: attrs)

/-- The sum of the lengths that `ber_encode_INTEGER` expects without the data. -/
def integersLen : List Nat → Except Stop Nat
  | [] => .ok 0
  | n :: ns => do
    let len ← berEncodeINTEGERLen none n
    let rest ← integersLen ns
    .ok (len + rest)

/-- The integers, copied to `buf` from `offset` on: the buffer and the offset behind them. -/
def appendIntegers (buf : List UInt8) (offset : Nat) :
    List (List UInt8) → Except Stop (List UInt8 × Nat)
  | [] => .ok (buf, offset)
  | data :: rest => do
    let field ← berEncodeINTEGER data
    let (buf, offset) ← appendPiece buf offset field
    appendIntegers buf offset rest

/-- A sequence of integers. -/
def berEncodeIntegers (integers : List (List UInt8)) : Except Stop (List UInt8) := do
  let len ← integersLen (integers.map List.length)
  let (buf, offset) ← appendIntegers (List.replicate len 0) 0 integers
  let content ← access (readAt buf 0 offset)
  berEncodeSEQUENCE content

/-! ### RSA -/

/-- The components of a private RSA key, in the order of `RSAPrivateKey`. -/
structure RsaPrivateKey where
  modulus : List UInt8
  publExp : List UInt8
  privExp : List UInt8
  prime1 : List UInt8
  prime2 : List UInt8
  exponent1 : List UInt8
  exponent2 : List UInt8
  coeff : List UInt8

def RsaPrivateKey.components (k : RsaPrivateKey) : List (List UInt8) :=
  [k.modulus, k.publExp, k.privExp, k.prime1, k.prime2, k.exponent1, k.exponent2, k.coeff]

/-- The attributes of a private RSA key, in the same order. -/
def rsaPrivateTypes : List Nat :=
  [CKA_MODULUS, CKA_PUBLIC_EXPONENT, CKA_PRIVATE_EXPONENT, CKA_PRIME_1, CKA_PRIME_2,
    CKA_EXPONENT_1, CKA_EXPONENT_2, CKA_COEFFICIENT]

/-- `ber_encode_RSAPrivateKey`. The version is the first of nine integers. -/
def berEncodeRsaPrivateKey (k : RsaPrivateKey) : Except Stop (List UInt8) := do
  let seq ← berEncodeIntegers ([0] :: k.components)
  berEncodePrivateKeyInfo berAlgIdRsaEncryption seq

/-- `ber_decode_RSAPrivateKey`. -/
def berDecodeRsaPrivateKey (mem : List UInt8) (dataLen : Nat) :
    Except Stop (List KeyAttribute) := do
  let (alg, rsaPrivKey) ← berDecodePrivateKeyInfo mem dataLen
  let same ← memcmpAt mem alg.ptr berRsaEncryption
  check (same = true) .functionFailed
  let buf ← berDecodeSEQUENCE mem rsaPrivKey.ptr rsaPrivKey.len
  let offset ← skipIntegers mem buf.data buf.dataLen 9 0
  check (¬ offset > buf.dataLen) .functionFailed
  let version ← berDecodeINTEGER mem buf.data buf.dataLen
  buildIntegers mem buf.data buf.dataLen rsaPrivateTypes version.fieldLen

/-- `ber_decode_RSAPublicKey`: the modulus and the public exponent. -/
def berDecodeRsaPublicKey (mem : List UInt8) (dataLen : Nat) :
    Except Stop (KeyAttribute × KeyAttribute) := do
  let spki ← berDecodeSpki mem dataLen
  let base ← berDecodeSEQUENCE berAlgIdRsaEncryption 0 berAlgIdRsaEncryption.length
  let algidRsaBase ← access (readAt berAlgIdRsaEncryption base.data base.dataLen)
  let same ← memcmpAt mem spki.algOid.ptr algidRsaBase
  check (same = true) .functionFailed
  let seq ← berDecodeSEQUENCE mem spki.key.ptr spki.key.len
  let modulus ← berDecodeINTEGER mem seq.data seq.dataLen
  let offset := modulus.fieldLen
  let exp ← berDecodeINTEGER mem (seq.data + offset) (ulongSub seq.dataLen offset)
  let modulusAttr ← buildAttribute mem CKA_MODULUS modulus.data modulus.dataLen
  let publExpAttr ← buildAttribute mem CKA_PUBLIC_EXPONENT exp.data exp.dataLen
  .ok (modulusAttr, publExpAttr)

/-! ### DSA -/

/-- The components of a private DSA key. -/
structure DsaPrivateKey where
  prime1 : List UInt8
  prime2 : List UInt8
  base : List UInt8
  privKey : List UInt8

/-- The attributes of the DSA parameters. -/
def dsaParamTypes : List Nat := [CKA_PRIME, CKA_SUBPRIME, CKA_BASE]

/-- `ber_encode_DSAPrivateKey`. The parameters are in the algorithm identifier. -/
def berEncodeDsaPrivateKey (k : DsaPrivateKey) : Except Stop (List UInt8) := do
  let param ← berEncodeIntegers [k.prime1, k.prime2, k.base]
  let alg ← berEncodeSEQUENCE (berIdDsa ++ param)
  let key ← berEncodeINTEGER k.privKey
  berEncodePrivateKeyInfo alg key

/-- `ber_decode_DSAPrivateKey`. -/
def berDecodeDsaPrivateKey (mem : List UInt8) (dataLen : Nat) :
    Except Stop (List KeyAttribute) := do
  let (alg, dsakey) ← berDecodePrivateKeyInfo mem dataLen
  let same ← memcmpAt mem alg.ptr berIdDsa
  check (same = true) .functionFailed
  let buf ← berDecodeSEQUENCE mem (alg.ptr + berIdDsa.length) (ulongSub alg.len berIdDsa.length)
  let offset ← skipIntegers mem buf.data buf.dataLen 3 0
  check (¬ offset > buf.dataLen) .functionFailed
  let attrs ← buildIntegers mem buf.data buf.dataLen dsaParamTypes 0
  let value ← berDecodeINTEGER mem dsakey.ptr dsakey.len
  let valueAttr ← buildAttribute mem CKA_VALUE value.data value.dataLen
  .ok (attrs ++ [valueAttr])

/-- `ber_decode_DSAPublicKey`. -/
def berDecodeDsaPublicKey (mem : List UInt8) (dataLen : Nat) :
    Except Stop (List KeyAttribute) := do
  let spki ← berDecodeSpki mem dataLen
  let same ← memcmpAt mem spki.algOid.ptr berIdDsa
  check (same = true) .functionFailed
  let seq ← berDecodeSEQUENCE mem spki.param.ptr spki.param.len
  let prime ← berDecodeINTEGER mem seq.data seq.dataLen
  let offset := prime.fieldLen
  let subprime ← berDecodeINTEGER mem (seq.data + offset) (ulongSub seq.dataLen offset)
  let offset := offset + subprime.fieldLen
  let base ← berDecodeINTEGER mem (seq.data + offset) (ulongSub seq.dataLen offset)
  let value ← berDecodeINTEGER mem spki.key.ptr spki.key.len
  let primeAttr ← buildAttribute mem CKA_PRIME prime.data prime.dataLen
  let subprimeAttr ← buildAttribute mem CKA_SUBPRIME subprime.data subprime.dataLen
  let baseAttr ← buildAttribute mem CKA_BASE base.data base.dataLen
  let valueAttr ← buildAttribute mem CKA_VALUE value.data value.dataLen
  .ok [primeAttr, subprimeAttr, baseAttr, valueAttr]

/-! ### EC -/

/-- The key types that the EC functions are called with. -/
inductive EcKeyType
  | ec
  | edwards
  | montgomery
  | other
  deriving DecidableEq, Repr

/-- The components of a private EC key. `CKA_EC_POINT` is optional. -/
structure EcPrivateKey where
  params : List UInt8
  point : Option (List UInt8)
  value : List UInt8
  deriving DecidableEq, Repr

/-- The point in `CKA_EC_POINT`, as the functions that encode want it: `CKK_EC` has it in an octet
string, the other types raw. -/
def ecPointOf (keyType : EcKeyType) (pubkey : List UInt8) : Except Stop (List UInt8) :=
  match keyType with
  | .ec =>
    match berDecodeOCTETSTRING pubkey 0 pubkey.length with
    | .error .fault  => .error .fault
    | .error (.rc _) => .error (.rc .attributeValueInvalid)
    | .ok field      =>
      if pubkey.length ≠ field.fieldLen then .error (.rc .attributeValueInvalid)
      else access (readAt pubkey field.data field.dataLen)
  | .edwards | .montgomery => .ok pubkey
  | .other => .error (.rc .keyTypeInconsistent)

/-- The public key in `ECPrivateKey`: `[1] BIT STRING`. -/
def encodeEcPublicKey (keyType : EcKeyType) (pubkey : List UInt8) : Except Stop (List UInt8) := do
  let ecpoint ← ecPointOf keyType pubkey
  let bits ←
    match berEncodeBITSTRING ecpoint 0 with
    | .error .fault  => .error .fault
    | .error (.rc _) => .error (.rc .attributeValueInvalid)
    | .ok bits       => .ok bits
  berEncodeCHOICE 1 bits true

/-- The algorithm identifier: the length of the sequence is one byte. -/
def derAlgIdEc (keyType : EcKeyType) (params : List UInt8) : Except Stop (List UInt8) :=
  match keyType with
  | .ec => .ok ((derAlgIdEcBase ++ params).set 1 ((derAlgIdEcBase.getD 1 0) + .ofNat params.length))
  | .edwards | .montgomery =>
    .ok ((derAlgIdEcBase.take 2 ++ params).set 1 (.ofNat params.length))
  | .other => .error (.rc .keyTypeInconsistent)

/-- `der_encode_ECPrivateKey`. The length of the inner sequence is found first. -/
def derEncodeEcPrivateKey (keyType : EcKeyType) (k : EcPrivateKey) : Except Stop (List UInt8) := do
  let verLen ← berEncodeINTEGERLen none 1
  let valueLen ← berEncodeFieldLen k.value.length
  let pubLen ←
    match k.point with
    | none        => .ok 0
    | some pubkey => do
      let choice ← encodeEcPublicKey keyType pubkey
      .ok choice.length
  let buf := List.replicate (verLen + valueLen + pubLen) 0
  let version ← berEncodeINTEGER [1]
  let (buf, offset) ← appendPiece buf 0 version
  let value ← berEncodeOCTETSTRING k.value
  let (buf, offset) ← appendPiece buf offset value
  let (buf, offset) ←
    match k.point with
    | none        => .ok (buf, offset)
    | some pubkey => do
      let choice ← encodeEcPublicKey keyType pubkey
      appendPiece buf offset choice
  let content ← access (readAt buf 0 offset)
  let seq ← berEncodeSEQUENCE content
  let alg ← derAlgIdEc keyType k.params
  berEncodePrivateKeyInfo alg seq

/-- The optional public key behind the private one: `none` if the option is none of 0 and 1. That
ends the function with the return value it has at that point, which is `CKR_OK`. -/
def decodeEcPublicKey (mem : List UInt8) (buf bufLen offset dataLen : Nat) :
    Except Stop (Option (Option Slice)) :=
  if buf + offset < dataLen then do
    let (choice, option) ← berDecodeCHOICE mem (buf + offset) (ulongSub bufLen offset) true
    let offset := offset + (choice.fieldLen - choice.dataLen)
    match option with
    | 0 => .ok (some none)
    | 1 => do
      let bits ← berDecodeBITSTRING mem (buf + offset) (ulongSub bufLen offset)
      .ok (some (some ⟨bits.data + 1, bits.dataLen - 1⟩))
    | _ => .ok none
  else .ok (some none)

/-- `CKA_EC_POINT` of a decoded public key. -/
def buildEcPoint (keyType : EcKeyType) (mem : List UInt8) (pub : Slice) :
    Except Stop (List UInt8) := do
  let bytes ← access (readAt mem pub.ptr pub.len)
  match keyType with
  | .ec                    => berEncodeOCTETSTRING bytes
  | .edwards | .montgomery => .ok bytes
  | .other                 => .error (.rc .keyTypeInconsistent)

/-- The check of the algorithm identifier in front of the private key. -/
def checkEcAlg (keyType : EcKeyType) (mem : List UInt8) (alg : Slice) : Except Stop Unit :=
  match keyType with
  | .ec => do
    let same ← memcmpAt mem alg.ptr berIdEc
    check (same = true) .functionFailed
  | .edwards | .montgomery => .ok ()
  | .other => .error (.rc .keyTypeInconsistent)

/-- The part of the algorithm identifier that becomes `CKA_EC_PARAMS`. -/
def ecParamsOf (keyType : EcKeyType) (alg : Slice) : Slice :=
  match keyType with
  | .ec => ⟨alg.ptr + berIdEc.length, ulongSub alg.len berIdEc.length⟩
  | _   => alg

/-- `der_decode_ECPrivateKey`: the attributes, if the function has set any. -/
def derDecodeEcPrivateKey (keyType : EcKeyType) (mem : List UInt8) (dataLen : Nat) :
    Except Stop (Option EcPrivateKey) := do
  let outer ← berDecodeSEQUENCE mem 0 dataLen
  check (¬ outer.fieldLen > dataLen) .functionFailed
  -- What follows the sequence is padding.
  let dataLen := outer.fieldLen
  let (alg, eckey) ← berDecodePrivateKeyInfo mem dataLen
  checkEcAlg keyType mem alg
  let buf ← berDecodeSEQUENCE mem eckey.ptr eckey.len
  let version ← berDecodeINTEGER mem buf.data buf.dataLen
  let offset := version.fieldLen
  let priv ← berDecodeOCTETSTRING mem (buf.data + offset) (ulongSub buf.dataLen offset)
  let offset := offset + priv.fieldLen
  let optional ← decodeEcPublicKey mem buf.data buf.dataLen offset dataLen
  match optional with
  | none     => .ok none
  | some pub => do
    let parm := ecParamsOf keyType alg
    let params ← access (readAt mem parm.ptr parm.len)
    let point ←
      match pub with
      | none       => .ok none
      | some slice => do
        let point ← buildEcPoint keyType mem slice
        .ok (some point)
    let value ← access (readAt mem priv.data priv.dataLen)
    .ok (some ⟨params, point, value⟩)

/-- `der_decode_ECPublicKey`: `CKA_EC_PARAMS` and `CKA_EC_POINT`. -/
def derDecodeEcPublicKey (keyType : EcKeyType) (mem : List UInt8) (dataLen : Nat) :
    Except Stop (List UInt8 × List UInt8) := do
  let spki ← berDecodeSpki mem dataLen
  let param ←
    match keyType with
    | .ec => do
      let base ← berDecodeSEQUENCE derAlgIdEcBase 0 derAlgIdEcBase.length
      let algidEcBase ← access (readAt derAlgIdEcBase base.data base.dataLen)
      let same ← memcmpAt mem spki.algOid.ptr algidEcBase
      check (same = true) .functionFailed
      .ok spki.param
    | .edwards | .montgomery => .ok spki.algOid
    | .other => .error (.rc .keyTypeInconsistent)
  let params ← access (readAt mem param.ptr param.len)
  let point ← buildEcPoint keyType mem spki.key
  .ok (params, point)

end OpenCryptoki.Common
