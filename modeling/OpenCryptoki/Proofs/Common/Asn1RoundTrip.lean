import Mathlib.Data.List.Forall2
import OpenCryptoki.Proofs.Common.Asn1
import OpenCryptoki.Proofs.Common.Asn1Encode

/-!
# `OpenCryptoki.Proofs.Common.Asn1RoundTrip`: decoding the private keys that have been encoded

`rsaEncoding`, `dsaEncoding` and `ecEncoding` are what the three functions encode. A sequence of
integers is decoded in two passes: `skipIntegers_of`, `buildIntegers_of`.

- `rsa_round_trips`, `dsa_round_trips`: RSA and DSA keys come back, with any padding.
- `ec_round_trips_iff`: an EC key comes back exactly if the content of its algorithm identifier has
  less than 128 bytes and its point is in the shortest form. The identifier is written with one
  byte for its length. From 128 on this byte is the low byte of the length. It stands for a shorter
  content (`alg_forms`), or for the number of bytes that a length has. In the second case the rest
  of the structure is shifted by that number, and `noKey_shifted` goes over the forms of the length
  to show that no key is found there.
-/

set_option autoImplicit false

namespace OpenCryptoki.Proofs.Common

open Lib OpenCryptoki.Common List

/-! ### Integers -/

/-- The integer that is decoded from the encoding of `data`. -/
def decodedInteger (data : List UInt8) : List UInt8 := stripZero (integerBytes data)

/-- `value` is the same unsigned number as `data`, and the same bytes if `data` has no zero byte in
front. -/
def SameInteger (data value : List UInt8) : Prop :=
  leValue value.reverse = leValue data.reverse ∧ (data.head? ≠ some 0 → value = data)

/-- A zero on top does not count. -/
theorem leValue_append_zero (xs : List UInt8) : leValue (xs ++ [0]) = leValue xs := by
  induction xs with
  | nil => rfl
  | cons x xs ih => rw [cons_append, leValue, leValue, ih]

/-- The integer that comes back has the same value. -/
theorem sameInteger_decoded (data : List UInt8) : SameInteger data (decodedInteger data) := by
  unfold decodedInteger integerBytes integerPadding
  dsimp only
  match data with
  | [] => exact ⟨rfl, fun _ => rfl⟩
  | x :: xs =>
    split
    · exact ⟨rfl, fun _ => rfl⟩
    · rw [replicate_zero, nil_append]
      by_cases hx : x = 0
      · subst hx
        refine ⟨?_, fun h => absurd rfl h⟩
        show leValue xs.reverse = leValue (0 :: xs).reverse
        rw [reverse_cons, leValue_append_zero]
      · rw [stripZero_cons_of_ne hx]
        exact ⟨rfl, fun _ => rfl⟩

section
variable {mem : List UInt8} {buf bufLen : Nat} (hlt : bufLen < 2 ^ 24)
include hlt

variable {rest : List UInt8} {offset : Nat}

/-- The next integer of a sequence. -/
theorem nextInteger_of {data : List UInt8}
    (r : Remaining mem buf bufLen offset (tlv 0x02 (integerBytes data) ++ rest)) :
    ∃ field, berDecodeINTEGER mem (buf + offset) (ulongSub bufLen offset) = .ok field ∧
      FieldAt mem (buf + offset) field (decodedInteger data) rest ∧
      Remaining mem buf bufLen (offset + field.fieldLen) rest := by
  have hsize := r.size
  have hfits : (integerBytes data).length < 2 ^ 24 := by
    rw [length_append, length_tlv] at hsize
    omega
  obtain ⟨field, heq, hfield, hlen⟩ := berDecodeINTEGER_tlv r.bytes_at (tlv_spec _ hfits rest)
  rw [r.ulongSub_eq (by omega)]
  exact ⟨field, heq, hfield, r.next hfield hlen⟩

variable (integers : List (List UInt8))

/-- The first pass gets to the end of the integers. -/
theorem skipIntegers_of (r : Remaining mem buf bufLen offset (integersBytes integers ++ rest)) :
    ∃ offset', skipIntegers mem buf bufLen integers.length offset = .ok offset' ∧
      Remaining mem buf bufLen offset' rest := by
  induction integers generalizing offset with
  | nil => exact ⟨offset, rfl, r⟩
  | cons data integers ih =>
    rw [integersBytes_cons, append_assoc] at r
    obtain ⟨field, heq, -, r'⟩ := nextInteger_of hlt r
    obtain ⟨offset', hskip, r''⟩ := ih r'
    refine ⟨offset', ?_, r''⟩
    rw [length_cons, skipIntegers, heq, ok_bind, hskip]

/-- The second pass finds their values. -/
theorem buildIntegers_of {types : List Nat} (htypes : types.length = integers.length)
    (r : Remaining mem buf bufLen offset (integersBytes integers ++ rest)) :
    buildIntegers mem buf bufLen types offset
      = .ok (zipWith KeyAttribute.mk types (integers.map decodedInteger)) := by
  induction integers generalizing types offset with
  | nil =>
    obtain rfl := eq_nil_of_length_eq_zero htypes
    rfl
  | cons data integers ih =>
    match types, htypes with
    | type :: types, htypes =>
      rw [integersBytes_cons, append_assoc] at r
      obtain ⟨field, heq, hfield, r'⟩ := nextInteger_of hlt r
      rw [buildIntegers, heq, ok_bind, buildAttribute, hfield.readAt, access_bind, ok_bind,
        ih (Nat.succ.inj htypes) r', ok_bind]
      rfl

end

/-! ### `PrivateKeyInfo` -/

variable {alg bytes xs pad params value : List UInt8} {s : Slice} {ptr offset dataLen n : Nat}
  {k : RsaPrivateKey} {keyType : EcKeyType} {raw point : Option (List UInt8)} {c x a : UInt8}

/-- The encoding is a `PrivateKeyInfo`, also in front of padding. -/
theorem isPrivateKeyInfo_encoding {algId key : List UInt8} (pad : List UInt8)
    (hsize : (privateKeyInfoContent algId key).length < 2 ^ 24)
    (halg : Tlv 0x30 alg (tlv 0x04 key) (algId ++ tlv 0x04 key)) :
    IsPrivateKeyInfo (tlv 0x30 (privateKeyInfoContent algId key) ++ pad) alg key
      (tlv 0x04 key ++ pad) := by
  have hkey : key.length < 2 ^ 24 := by
    rw [privateKeyInfoContent, length_append, length_tlv 0x04] at hsize
    omega
  refine ⟨_, [0], algId ++ tlv 0x04 key, tlv 0x04 key, [], pad, tlv_spec _ hsize pad, ?_, halg,
    tlv_self 0x04 hkey, rfl⟩
  rw [privateKeyInfoContent, append_assoc]
  exact tlv_spec _ (by decide) _

/-- A sequence of integers that fills a slice. -/
theorem sequence_of {mem : List UInt8} {integers : List (List UInt8)}
    (h : Shows mem s (tlv 0x30 (integersBytes integers)))
    (hsize : (integersBytes integers).length < 2 ^ 24) :
    ∃ buf, berDecodeSEQUENCE mem s.ptr s.len = .ok buf ∧ buf.dataLen < 2 ^ 24 ∧
      Remaining mem buf.data buf.dataLen 0 (integersBytes integers ++ []) := by
  obtain ⟨buf, heq, hfield, -⟩ := berDecodeField_tlv (· == 0x30) h.1 rfl (tlv_self _ hsize)
  refine ⟨buf, ?_, ?_, ?_⟩
  · rw [berDecodeSEQUENCE, h.2, heq]
  · rw [hfield.dataLen]
    exact hsize
  · rw [append_nil]
    exact .start hfield.content_at hfield.dataLen

/-- The comparison with an object identifier that is there. -/
theorem memcmpAt_of {mem rest : List UInt8} (h : At mem ptr (bytes ++ rest)) :
    memcmpAt mem ptr bytes = .ok true := by
  rw [memcmpAt, h.left.readAt, access_bind, beq_self_eq_true]

/-- A comparison that succeeds. -/
theorem memcmpAt_true {mem : List UInt8} (hdrop : mem.drop ptr = xs)
    (h : memcmpAt mem ptr bytes = .ok true) : bytes <+: xs := by
  obtain ⟨data, hread, heq⟩ := bind_eq_ok.mp h
  rw [access_eq_ok, readAt] at hread
  split at hread
  · cases hread
    rw [Except.ok.injEq, beq_iff_eq, hdrop] at heq
    rw [← heq]
    exact List.take_prefix _ _
  · cases hread

/-! ### RSA -/

/-- The encoding of a private RSA key. -/
def rsaEncoding (k : RsaPrivateKey) : List UInt8 :=
  tlv 0x30 (privateKeyInfoContent berAlgIdRsaEncryption
    (tlv 0x30 (integersBytes ([0] :: k.components))))

section
variable (h : (rsaEncoding k).length < 2 ^ 24)
include h

/-- All parts of the encoding are short enough. -/
theorem rsa_sizes :
    (integersBytes ([0] :: k.components)).length < 2 ^ 24 ∧
      (privateKeyInfoContent berAlgIdRsaEncryption
        (tlv 0x30 (integersBytes ([0] :: k.components)))).length < 2 ^ 24 := by
  rw [rsaEncoding, length_tlv] at h
  refine ⟨?_, by omega⟩
  rw [privateKeyInfoContent, length_append, length_tlv 0x04, length_tlv 0x30] at h
  omega

/-- An RSA key is encoded as `rsaEncoding`. -/
theorem berEncodeRsaPrivateKey_ok : berEncodeRsaPrivateKey k = .ok (rsaEncoding k) := by
  obtain ⟨hinner, houter⟩ := rsa_sizes h
  rw [berEncodeRsaPrivateKey, berEncodeIntegers_eq hinner, ok_bind]
  exact berEncodePrivateKeyInfo_eq houter

/-- The components come back from the encoding. -/
theorem berDecodeRsaPrivateKey_encoding (hlt : (rsaEncoding k ++ pad).length < 2 ^ 64) :
    berDecodeRsaPrivateKey (rsaEncoding k ++ pad) (rsaEncoding k ++ pad).length
      = .ok (zipWith KeyAttribute.mk rsaPrivateTypes (k.components.map decodedInteger)) := by
  obtain ⟨hinner, houter⟩ := rsa_sizes h
  have halg : Tlv 0x30 (berRsaEncryption ++ [0x05, 0x00])
      (tlv 0x04 (tlv 0x30 (integersBytes ([0] :: k.components))))
      (berAlgIdRsaEncryption ++ tlv 0x04 (tlv 0x30 (integersBytes ([0] :: k.components)))) :=
    ⟨[0x0D], .short 0x0D (by decide), rfl⟩
  have hinfo : IsPrivateKeyInfo (rsaEncoding k ++ pad) _ _ _ :=
    isPrivateKeyInfo_encoding pad houter halg
  obtain ⟨s, t, heq, halgAt, hkey, -, -⟩ := berDecodePrivateKeyInfo_of (at_self _) hlt hinfo
  generalize rsaEncoding k ++ pad = mem at heq halgAt hkey
  obtain ⟨buf, hbuf, hsize, r⟩ := sequence_of hkey hinner
  obtain ⟨offset, hskip, r'⟩ := skipIntegers_of hsize ([0] :: k.components) r
  have hoffset : ¬ offset > buf.dataLen := by
    have := r'.size
    omega
  rw [integersBytes_cons, append_assoc] at r
  obtain ⟨version, hversion, -, r''⟩ := nextInteger_of hsize r
  rw [add_zero, ulongSub_of_le zero_le (by omega), Nat.sub_zero] at hversion
  rw [zero_add] at r''
  have htypes : rsaPrivateTypes.length = k.components.length := rfl
  have hbuild := buildIntegers_of hsize k.components htypes r''
  rw [berDecodeRsaPrivateKey, heq, ok_bind]
  dsimp only
  rw [memcmpAt_of halgAt.1, ok_bind, check_bind rfl, hbuf, ok_bind]
  refine (congrArg (· >>= _) hskip).trans ?_
  rw [ok_bind, check_bind hoffset, hversion, ok_bind, hbuild]

end

/-! ### DSA -/

/-- The parameters of a DSA key, behind the object identifier. -/
def dsaAlg (k : DsaPrivateKey) : List UInt8 :=
  berIdDsa ++ tlv 0x30 (integersBytes [k.prime1, k.prime2, k.base])

/-- The encoding of a private DSA key. -/
def dsaEncoding (k : DsaPrivateKey) : List UInt8 :=
  tlv 0x30 (privateKeyInfoContent (tlv 0x30 (dsaAlg k)) (tlv 0x02 (integerBytes k.privKey)))

/-- Every part of the encoding is shorter than it. -/
structure DsaSizes (k : DsaPrivateKey) : Prop where
  params : (integersBytes [k.prime1, k.prime2, k.base]).length < 2 ^ 24
  alg : (dsaAlg k).length < 2 ^ 24
  privKey : (integerBytes k.privKey).length < 2 ^ 24
  content : (privateKeyInfoContent (tlv 0x30 (dsaAlg k))
    (tlv 0x02 (integerBytes k.privKey))).length < 2 ^ 24

section
variable {k : DsaPrivateKey} (h : (dsaEncoding k).length < 2 ^ 24)
include h

/-- All parts of the encoding are short enough. -/
theorem dsa_sizes : DsaSizes k := by
  rw [dsaEncoding, length_tlv] at h
  have hcontent : (privateKeyInfoContent (tlv 0x30 (dsaAlg k))
      (tlv 0x02 (integerBytes k.privKey))).length < 2 ^ 24 := by omega
  have hparts := hcontent
  rw [privateKeyInfoContent, length_append, length_append, length_tlv 0x30,
    length_tlv 0x04, length_tlv 0x02 (integerBytes _)] at hparts
  have halg : (dsaAlg k).length < 2 ^ 24 := by omega
  refine ⟨?_, halg, by omega, hcontent⟩
  rw [dsaAlg, length_append, length_tlv] at halg
  omega

/-- A DSA key is encoded as `dsaEncoding`. -/
theorem berEncodeDsaPrivateKey_ok : berEncodeDsaPrivateKey k = .ok (dsaEncoding k) := by
  have sizes := dsa_sizes h
  rw [berEncodeDsaPrivateKey, berEncodeIntegers_eq sizes.params, ok_bind, berEncodeSEQUENCE,
    ← dsaAlg, berEncodeField_ok 0x30 sizes.alg, ok_bind, berEncodeINTEGER_ok sizes.privKey, ok_bind]
  exact berEncodePrivateKeyInfo_eq sizes.content

/-- The numbers come back from the encoding. -/
theorem berDecodeDsaPrivateKey_encoding (hlt : (dsaEncoding k ++ pad).length < 2 ^ 64) :
    berDecodeDsaPrivateKey (dsaEncoding k ++ pad) (dsaEncoding k ++ pad).length
      = .ok (zipWith KeyAttribute.mk (dsaParamTypes ++ [CKA_VALUE])
          ([k.prime1, k.prime2, k.base, k.privKey].map decodedInteger)) := by
  have sizes := dsa_sizes h
  have hinfo : IsPrivateKeyInfo (dsaEncoding k ++ pad) _ _ _ :=
    isPrivateKeyInfo_encoding pad sizes.content (tlv_spec _ sizes.alg _)
  obtain ⟨s, t, heq, halgAt, hkey, -, -⟩ := berDecodePrivateKeyInfo_of (at_self _) hlt hinfo
  generalize dsaEncoding k ++ pad = mem at heq halgAt hkey
  -- The parameters follow the object identifier.
  have hparam : Shows mem ⟨s.ptr + berIdDsa.length, ulongSub s.len berIdDsa.length⟩
      (tlv 0x30 (integersBytes [k.prime1, k.prime2, k.base])) := by
    refine ⟨halgAt.1.right, ?_⟩
    have hlen := halgAt.2
    have halg := sizes.alg
    rw [dsaAlg, length_append] at hlen halg
    show ulongSub s.len berIdDsa.length = _
    rw [ulongSub_of_le (by omega) (by omega), hlen, Nat.add_sub_cancel_left]
  obtain ⟨buf, hbuf, hsize, r⟩ := sequence_of hparam sizes.params
  obtain ⟨offset, hskip, r'⟩ := skipIntegers_of hsize [k.prime1, k.prime2, k.base] r
  have hoffset : ¬ offset > buf.dataLen := by
    have := r'.size
    omega
  have htypes : dsaParamTypes.length = [k.prime1, k.prime2, k.base].length := rfl
  have hbuild := buildIntegers_of hsize _ htypes r
  obtain ⟨value, hvalue, hvalueAt, -⟩ :=
    berDecodeINTEGER_tlv hkey.1 (tlv_self _ sizes.privKey)
  rw [berDecodeDsaPrivateKey, heq, ok_bind]
  dsimp only
  rw [memcmpAt_of halgAt.1, ok_bind, check_bind rfl, hbuf, ok_bind]
  refine (congrArg (· >>= _) hskip).trans ?_
  rw [ok_bind, check_bind hoffset, hbuild, ok_bind, hkey.2, hvalue, ok_bind, buildAttribute,
    hvalueAt.readAt, access_bind, ok_bind]
  rfl

end

/-! ### EC -/

/-- The content of the algorithm identifier. -/
def ecAlg (keyType : EcKeyType) (params : List UInt8) : List UInt8 :=
  match keyType with
  | .ec => berIdEc ++ params
  | _   => params

/-- The algorithm identifier, with the low byte of the length of its content. -/
def ecAlgId (keyType : EcKeyType) (params : List UInt8) : List UInt8 :=
  0x30 :: .ofNat (ecAlg keyType params).length :: ecAlg keyType params

/-- The algorithm identifier of an EC key. -/
theorem derAlgIdEc_eq (h : keyType ≠ .other) (params : List UInt8) :
    derAlgIdEc keyType params = .ok (ecAlgId keyType params) := by
  cases keyType with
  | ec =>
    have hbyte : derAlgIdEcBase.getD 1 0 + UInt8.ofNat params.length
        = .ofNat (berIdEc ++ params).length := by
      rw [length_append, UInt8.ofNat_add]
      rfl
    rw [derAlgIdEc, hbyte]
    rfl
  | edwards | montgomery => rfl
  | other => exact absurd rfl h

/-- `CKA_EC_POINT` holds the point `raw`. -/
def RawPoint (keyType : EcKeyType) (point raw : List UInt8) : Prop :=
  match keyType with
  | .ec    => Tlv 0x04 raw [] point
  | .other => False
  | _      => point = raw

/-- `CKA_EC_POINT` as the functions that decode build it. -/
def ecPoint (keyType : EcKeyType) (raw : List UInt8) : List UInt8 :=
  match keyType with
  | .ec => tlv 0x04 raw
  | _   => raw

/-- The raw point is found in the attribute. -/
theorem ecPointOf_ok {point raw : List UInt8} (h : RawPoint keyType point raw) :
    ecPointOf keyType point = .ok raw := by
  cases keyType with
  | ec =>
    obtain ⟨field, heq, hfield, hlen⟩ := berDecodeField_tlv (· == 0x04) (at_self point) rfl h
    have hsame : ¬ point.length ≠ field.fieldLen := by
      rw [length_nil] at hlen
      omega
    rw [ecPointOf, berDecodeOCTETSTRING, heq]
    dsimp only
    rw [if_neg hsame, hfield.readAt, access_some]
  | edwards | montgomery =>
    cases h
    rfl
  | other => cases h

/-- The public key in `ECPrivateKey`. -/
def ecPublicField : Option (List UInt8) → List UInt8
  | none     => []
  | some raw => tlv 0xA1 (tlv 0x03 (0 :: raw))

/-- The content of `ECPrivateKey`. -/
def ecKeyContent (raw : Option (List UInt8)) (value : List UInt8) : List UInt8 :=
  tlv 0x02 [1] ++ tlv 0x04 value ++ ecPublicField raw

/-- The encoding of a private EC key. -/
def ecEncoding (keyType : EcKeyType) (params : List UInt8) (raw : Option (List UInt8))
    (value : List UInt8) : List UInt8 :=
  tlv 0x30 (privateKeyInfoContent (ecAlgId keyType params) (tlv 0x30 (ecKeyContent raw value)))

/-- Every part of the encoding is shorter than it. -/
structure EcSizes (keyType : EcKeyType) (params : List UInt8) (raw : Option (List UInt8))
    (value : List UInt8) : Prop where
  alg_lt : (ecAlg keyType params).length < 2 ^ 24
  value_lt : value.length < 2 ^ 24
  point_lt : ∀ bytes ∈ raw, (tlv 0x03 (0 :: bytes)).length < 2 ^ 24
  key_lt : (ecKeyContent raw value).length < 2 ^ 24
  content_lt : (privateKeyInfoContent (ecAlgId keyType params)
    (tlv 0x30 (ecKeyContent raw value))).length < 2 ^ 24

/-- All parts of the encoding are short enough. -/
theorem ec_sizes (h : (ecEncoding keyType params raw value).length < 2 ^ 24) :
    EcSizes keyType params raw value := by
  rw [ecEncoding, length_tlv] at h
  have hcontent : (privateKeyInfoContent (ecAlgId keyType params)
      (tlv 0x30 (ecKeyContent raw value))).length < 2 ^ 24 := by omega
  have hparts := hcontent
  rw [privateKeyInfoContent, length_append, length_append, ecAlgId, length_cons,
    length_cons, length_tlv 0x04, length_tlv 0x30] at hparts
  have hkey : (ecKeyContent raw value).length < 2 ^ 24 := by omega
  have hkeyParts := hkey
  rw [ecKeyContent, length_append, length_append, length_tlv 0x04] at hkeyParts
  refine ⟨by omega, by omega, ?_, hkey, hcontent⟩
  intro bytes hbytes
  cases hbytes
  rw [ecPublicField, length_tlv 0xA1] at hkeyParts
  omega

/-- The private key is short enough. -/
theorem EcSizes.octets_lt (sizes : EcSizes keyType params raw value) :
    (tlv 0x30 (ecKeyContent raw value)).length < 2 ^ 24 := by
  have hcontent := sizes.content_lt
  rw [privateKeyInfoContent, length_append, length_tlv 0x04] at hcontent
  omega

/-- The point is encoded as the public key. -/
theorem encodeEcPublicKey_ok {point raw : List UInt8} (h : RawPoint keyType point raw)
    (hsize : (tlv 0x03 (0 :: raw)).length < 2 ^ 24) :
    encodeEcPublicKey keyType point = .ok (ecPublicField (some raw)) := by
  have hparts := hsize
  rw [length_tlv, length_cons] at hparts
  have hbits : berEncodeBITSTRING raw 0 = .ok (tlv 0x03 (0 :: raw)) := by
    rw [berEncodeBITSTRING, check_bind (by omega),
      berEncodeField_ok 0x03 (by rw [length_cons]; omega)]
  rw [encodeEcPublicKey, ecPointOf_ok h, ok_bind, hbits]
  exact berEncodeField_ok 0xA1 hsize

/-- What a supplied `CKA_EC_POINT` holds. -/
def RawPoints (keyType : EcKeyType) : Option (List UInt8) → Option (List UInt8) → Prop
  | none,       none     => True
  | some point, some raw => RawPoint keyType point raw
  | _,          _        => False

/-- A key without a raw point has no point. -/
theorem RawPoints.eq_none (h : RawPoints keyType point none) : point = none := by
  cases point with
  | none => rfl
  | some point => cases h

/-- A raw point comes from a point of the key. -/
theorem RawPoints.eq_some {raw : List UInt8} (h : RawPoints keyType point (some raw)) :
    ∃ bytes, point = some bytes ∧ RawPoint keyType bytes raw := by
  cases point with
  | none => cases h
  | some bytes => exact ⟨bytes, rfl, h⟩

/-- The last statements of `der_encode_ECPrivateKey`. -/
theorem encodeEcEnd_ok (htype : keyType ≠ .other) (sizes : EcSizes keyType params raw value)
    (spare : List UInt8) :
    (do
      let content ← access (readAt (ecKeyContent raw value ++ spare) 0
        (ecKeyContent raw value).length)
      let seq ← berEncodeSEQUENCE content
      let alg ← derAlgIdEc keyType params
      berEncodePrivateKeyInfo alg seq) = .ok (ecEncoding keyType params raw value) := by
  rw [(at_start _ _).readAt, access_bind, berEncodeSEQUENCE, berEncodeField_ok 0x30 sizes.key_lt,
    ok_bind, derAlgIdEc_eq htype, ok_bind]
  exact berEncodePrivateKeyInfo_eq sizes.content_lt

/-- The version and the private value, in a buffer that is one byte too long. -/
theorem encodeEcStart_eq (value : List UInt8) (n : Nat) :
    appendPiece (replicate ((tlv 0x02 [1]).length + 1 + (tlv 0x04 value).length + n) 0) 0
        (tlv 0x02 [1])
      = .ok (tlv 0x02 [1] ++ replicate ((tlv 0x04 value).length + (n + 1)) 0,
          (tlv 0x02 [1]).length) := by
  have hfirst := appendPiece_eq [] (tlv 0x02 [1]) ((tlv 0x04 value).length + (n + 1)) rfl
  rw [nil_append, nil_append, length_nil] at hfirst
  rw [← hfirst]
  congr 2
  omega

/-- An EC key is encoded as `ecEncoding`. -/
theorem derEncodeEcPrivateKey_ok {k : EcPrivateKey} (htype : keyType ≠ .other)
    (hpoint : RawPoints keyType k.point raw)
    (h : (ecEncoding keyType k.params raw k.value).length < 2 ^ 24) :
    derEncodeEcPrivateKey keyType k = .ok (ecEncoding keyType k.params raw k.value) := by
  have sizes := ec_sizes h
  have hversion : berEncodeINTEGERLen none 1 = .ok ((tlv 0x02 [1]).length + 1) := by decide
  have hversion' : berEncodeINTEGER [1] = .ok (tlv 0x02 [1]) := by decide
  rw [derEncodeEcPrivateKey, hversion, ok_bind, berEncodeFieldLen_ok 0x04 sizes.value_lt, ok_bind]
  have hsecond := fun n => appendPiece_eq (tlv 0x02 [1]) (tlv 0x04 k.value) n rfl
  cases raw with
  | none =>
    have hend := encodeEcEnd_ok htype sizes (replicate 1 0)
    rw [ecKeyContent, ecPublicField, append_nil] at hend
    rw [hpoint.eq_none]
    dsimp only
    rw [ok_bind, hversion', ok_bind, encodeEcStart_eq, ok_bind]
    rw [berEncodeOCTETSTRING, berEncodeField_ok 0x04 sizes.value_lt, ok_bind, hsecond, ok_bind]
    rw [ok_bind]
    exact hend
  | some raw =>
    obtain ⟨point, heq, hraw⟩ := hpoint.eq_some
    have hpub := encodeEcPublicKey_ok hraw (sizes.point_lt raw rfl)
    have hend := encodeEcEnd_ok htype sizes (replicate 1 0)
    have hthird := appendPiece_eq (tlv 0x02 [1] ++ tlv 0x04 k.value) (ecPublicField (some raw))
      1 rfl
    rw [heq]
    dsimp only
    rw [hpub, ok_bind, ok_bind, hversion', ok_bind, encodeEcStart_eq, ok_bind]
    rw [berEncodeOCTETSTRING, berEncodeField_ok 0x04 sizes.value_lt, ok_bind, hsecond, ok_bind]
    rw [ok_bind, hthird, ok_bind]
    exact hend

/-- The public key behind the private value. -/
theorem decodeEcPublicKey_some {mem raw : List UInt8} {buf bufLen : Nat} (hlt : bufLen < 2 ^ 24)
    (r : Remaining mem buf bufLen offset (ecPublicField (some raw))) (h : buf + offset < dataLen) :
    ∃ s, decodeEcPublicKey mem buf bufLen offset dataLen = .ok (some (some s)) ∧
      Shows mem s raw := by
  have hsize := r.size
  have hinner : (tlv 0x03 (0 :: raw)).length < 2 ^ 24 := by
    rw [ecPublicField, length_tlv] at hsize
    omega
  have hbitsSize : (0 :: raw).length < 2 ^ 24 := by
    rw [length_tlv] at hinner
    omega
  obtain ⟨choice, hchoiceEq, hchoiceAt, hchoiceLen⟩ :=
    berDecodeField_tlv (fun tag => tag &&& 0xE0 == choiceBits true) r.bytes_at (by decide)
      (tlv_self 0xA1 hinner)
  have htag : mem[buf + offset]? = some 0xA1 := r.bytes_at.getElem?
  have hend := hchoiceAt.data_end
  have hdata := hchoiceAt.dataLen
  have hwhole : (ecPublicField (some raw)).length = _ := length_tlv 0xA1 (tlv 0x03 (0 :: raw))
  rw [length_nil] at hchoiceLen
  -- The bit string begins behind the header of the choice.
  have r' : Remaining mem buf bufLen (offset + (choice.fieldLen - choice.dataLen))
      (tlv 0x03 (0 :: raw)) := by
    have hptr : buf + (offset + (choice.fieldLen - choice.dataLen)) = choice.data := by omega
    refine ⟨?_, ?_⟩
    · rw [hptr]
      exact hchoiceAt.content_at
    · omega
  obtain ⟨bits, hbitsEq, hbitsAt, -⟩ :=
    berDecodeBITSTRING_tlv r'.bytes_at (tlv_self _ hbitsSize) (cons_ne_nil _ _)
  have hbitsLen := hbitsAt.dataLen
  rw [length_cons] at hbitsLen
  refine ⟨⟨bits.data + 1, bits.dataLen - 1⟩, ?_, hbitsAt.content_at.tail, ?_⟩
  · rw [← r'.ulongSub_eq (by omega)] at hbitsEq
    rw [decodeEcPublicKey, if_pos h, berDecodeCHOICE, r.ulongSub_eq (by omega), hchoiceEq, ok_bind,
      htag, access_bind, ok_bind]
    show (do
      let bits ← berDecodeBITSTRING mem
        (buf + (offset + (choice.fieldLen - choice.dataLen)))
        (ulongSub bufLen (offset + (choice.fieldLen - choice.dataLen)))
      .ok (some (some (⟨bits.data + 1, bits.dataLen - 1⟩ : Slice)))) = _
    rw [hbitsEq, ok_bind]
  · show bits.dataLen - 1 = raw.length
    omega

section
variable (htype : keyType ≠ .other)
include htype

/-- The attribute with the point is built again. -/
theorem buildEcPoint_of {mem raw : List UInt8} (h : Shows mem s raw) (hlt : raw.length < 2 ^ 24) :
    buildEcPoint keyType mem s = .ok (ecPoint keyType raw) := by
  rw [buildEcPoint, h.2, h.1.readAt, access_bind]
  cases keyType with
  | ec => exact berEncodeField_ok 0x04 hlt
  | edwards | montgomery => rfl
  | other => exact absurd rfl htype

variable {mem : List UInt8}

omit htype in
/-- The parameters are found in the identifier. -/
theorem ecParamsOf_of (h : Shows mem s (ecAlg keyType params))
    (hlt : (ecAlg keyType params).length < 2 ^ 24) :
    readAt mem (ecParamsOf keyType s).ptr (ecParamsOf keyType s).len = some params := by
  cases keyType with
  | ec =>
    have hlen := h.2
    rw [ecAlg, length_append] at hlen hlt
    have hparams : ulongSub s.len berIdEc.length = params.length := by
      rw [ulongSub_of_le (by omega) (by omega), hlen, Nat.add_sub_cancel_left]
    show readAt mem (s.ptr + berIdEc.length) (ulongSub s.len berIdEc.length) = some params
    rw [hparams]
    exact h.1.right.readAt
  | edwards | montgomery | other =>
    show readAt mem s.ptr s.len = some params
    rw [h.2]
    exact h.1.readAt

/-- A key that ends where the data ends. -/
theorem ecPrivateKey_of {parm key : Slice} (hparm : readAt mem parm.ptr parm.len = some params)
    (hkey : Shows mem key (tlv 0x30 (ecKeyContent raw value))) (hend : key.ptr + key.len = dataLen)
    (hvalue : value.length < 2 ^ 24)
    (hpoint : ∀ bytes ∈ raw, (tlv 0x03 (0 :: bytes)).length < 2 ^ 24)
    (hlt : (ecKeyContent raw value).length < 2 ^ 24) :
    decodeEcKey keyType mem parm key dataLen
      = .ok (some ⟨params, raw.map (ecPoint keyType), value⟩) := by
  obtain ⟨buf, hbuf, hbufAt, hbufLen⟩ :=
    berDecodeField_tlv (· == 0x30) hkey.1 rfl (tlv_self _ hlt)
  have r : Remaining mem buf.data buf.dataLen 0 (ecKeyContent raw value) :=
    .start hbufAt.content_at hbufAt.dataLen
  have hsize : buf.dataLen < 2 ^ 24 := by
    rw [hbufAt.dataLen]
    exact hlt
  have hversionTlv : Tlv 0x02 [1] (tlv 0x04 value ++ ecPublicField raw)
      (ecKeyContent raw value) := by
    rw [ecKeyContent, append_assoc]
    exact tlv_spec _ (by decide) _
  obtain ⟨version, hversion, hversionAt, hversionLen⟩ := berDecodeINTEGER_tlv r.bytes_at hversionTlv
  have r' := r.next hversionAt hversionLen
  rw [zero_add] at r'
  obtain ⟨priv, hpriv, hprivAt, hprivLen⟩ :=
    berDecodeField_tlv (· == 0x04) r'.bytes_at rfl (tlv_spec _ hvalue _)
  have r'' := r'.next hprivAt hprivLen
  rw [add_zero, ← hbufAt.dataLen] at hversion
  rw [← r'.ulongSub_eq (by omega)] at hpriv
  -- The content of the sequence ends with the data.
  have hlast : buf.data + buf.dataLen = dataLen := by
    have hbufEnd := hbufAt.data_end
    have hkeyLen := hkey.2
    rw [length_nil] at hbufLen
    rw [hbufAt.dataLen]
    omega
  have hrest := r''.size
  rw [decodeEcKey, berDecodeSEQUENCE, hkey.2, hbuf, ok_bind, hversion, ok_bind]
  dsimp only
  rw [berDecodeOCTETSTRING, hpriv, ok_bind]
  cases raw with
  | none =>
    rw [ecPublicField, length_nil] at hrest
    rw [decodeEcPublicKey, if_neg (by omega), ok_bind]
    dsimp only
    rw [hparm, access_bind, ok_bind, hprivAt.readAt, access_bind]
    rfl
  | some raw =>
    have hraw := hpoint raw rfl
    rw [length_tlv, length_cons] at hraw
    have hpos : 0 < (ecPublicField (some raw)).length := Nat.succ_pos _
    obtain ⟨slice, hslice, hsliceAt⟩ := decodeEcPublicKey_some hsize r''
      (show buf.data + (version.fieldLen + priv.fieldLen) < dataLen by omega)
    rw [hslice, ok_bind]
    dsimp only
    rw [hparm, access_bind, buildEcPoint_of htype hsliceAt (by omega), ok_bind, ok_bind,
      hprivAt.readAt, access_bind]
    rfl

/-- A key whose algorithm identifier has a length of one byte is decoded. -/
theorem derDecodeEcPrivateKey_encoding (halg : (ecAlg keyType params).length < 128)
    (h : (ecEncoding keyType params raw value).length < 2 ^ 24) :
    derDecodeEcPrivateKey keyType (ecEncoding keyType params raw value ++ pad)
        (ecEncoding keyType params raw value ++ pad).length
      = .ok (some ⟨params, raw.map (ecPoint keyType), value⟩) := by
  have sizes := ec_sizes h
  have hat := at_start (ecEncoding keyType params raw value) pad
  have houter : Tlv 0x30 _ pad (ecEncoding keyType params raw value ++ pad) :=
    tlv_spec _ sizes.content_lt pad
  obtain ⟨outer, houterEq, -, houterLen⟩ := berDecodeField_tlv (· == 0x30) (at_self _) rfl houter
  -- The source writes the length of the algorithm identifier as one byte.
  have halgTlv : Tlv 0x30 (ecAlg keyType params) (tlv 0x04 (tlv 0x30 (ecKeyContent raw value)))
      (ecAlgId keyType params ++ tlv 0x04 (tlv 0x30 (ecKeyContent raw value))) := by
    have hshort := LengthOctets.short (.ofNat (ecAlg keyType params).length)
      (by rw [toNat_ofNat_of_lt (by omega)]; exact halg)
    rw [toNat_ofNat_of_lt (by omega)] at hshort
    exact ⟨_, hshort, rfl⟩
  have hinfo := isPrivateKeyInfo_encoding [] sizes.content_lt halgTlv
  rw [append_nil, append_nil, ← ecEncoding] at hinfo
  obtain ⟨s, t, heq, halgAt, hkey, -, -, b, hlast, hend⟩ :=
    berDecodePrivateKeyInfo_of hat (by omega) hinfo
  obtain ⟨-, -, rfl⟩ := hlast.unique (tlv_self 0x04 sizes.octets_lt)
  rw [append_nil] at hend
  have hle : ¬ outer.fieldLen > (ecEncoding keyType params raw value ++ pad).length := by omega
  have hfieldLen : outer.fieldLen = (ecEncoding keyType params raw value).length := by
    rw [length_append] at houterLen
    omega
  have hparm := ecParamsOf_of halgAt sizes.alg_lt
  rw [derDecodeEcPrivateKey, berDecodeSEQUENCE, houterEq, ok_bind, check_bind hle]
  dsimp only
  rw [hfieldLen, heq, ok_bind]
  -- The identifier is compared for `CKK_EC` only.
  have hcheck : checkEcAlg keyType (ecEncoding keyType params raw value ++ pad) s = .ok () := by
    cases keyType with
    | ec => rw [checkEcAlg, memcmpAt_of halgAt.1, ok_bind, check_of rfl]
    | edwards | montgomery => rfl
    | other => exact absurd rfl htype
  rw [hcheck, ok_bind]
  exact ecPrivateKey_of htype hparm hkey (by rw [hkey.2]; exact hend) sizes.value_lt sizes.point_lt
    sizes.key_lt

end

/-! ### Algorithm identifiers that are too long -/

/-- The parameters that are returned have the length that the identifier says. -/
def ParamsLength (keyType : EcKeyType) (alg after params : List UInt8) : Prop :=
  match keyType with
  | .ec => berIdEc <+: alg ++ after ∧ params.length = ulongSub alg.length berIdEc.length
  | _   => params.length = alg.length

/-- Without an object identifier in front, all of the content counts. -/
theorem ParamsLength.length_eq {after : List UInt8}
    (hparams : ParamsLength keyType alg after params) (h : keyType ≠ .ec) :
    params.length = alg.length := by
  cases keyType with
  | ec => exact absurd rfl h
  | edwards | montgomery | other => exact hparams

/-- What `der_decode_ECPrivateKey` has found if it returns a key. -/
theorem derDecodeEcPrivateKey_found {data body : List UInt8} {k : EcPrivateKey}
    (hlt : data.length < 2 ^ 64) (hdata : Tlv 0x30 body [] data)
    (h : derDecodeEcPrivateKey keyType data data.length = .ok (some k)) :
    ∃ alg key after seq r ver b, IsPrivateKeyInfo data alg key after ∧ Tlv 0x30 seq r key ∧
      Tlv 0x02 ver b seq ∧ ParamsLength keyType alg after k.params := by
  obtain ⟨outer, houter, -, houterLen⟩ := berDecodeField_tlv (· == 0x30) (at_self data) rfl hdata
  rw [length_nil, add_zero] at houterLen
  rw [derDecodeEcPrivateKey, berDecodeSEQUENCE, houter, ok_bind, check_bind (by omega)] at h
  dsimp only at h
  rw [houterLen] at h
  obtain ⟨alg, key, after, hinfo⟩ | heq := berDecodePrivateKeyInfo_at (at_self data) hlt
  case inr =>
    rw [heq] at h
    cases h
  obtain ⟨s, t, heq, halg, hkey, hafter, hend, -⟩ :=
    berDecodePrivateKeyInfo_of (at_self data) hlt hinfo
  rw [heq, ok_bind] at h
  obtain ⟨_, hcheck, h⟩ := bind_eq_ok.mp h
  obtain ⟨buf, hbuf, h⟩ := bind_eq_ok.mp h
  obtain ⟨version, hversion, h⟩ := bind_eq_ok.mp h
  obtain ⟨priv, -, h⟩ := bind_eq_ok.mp h
  obtain ⟨optional, -, h⟩ := bind_eq_ok.mp h
  -- The sequence and the version are there.
  rw [berDecodeSEQUENCE, hkey.2] at hbuf
  obtain ⟨_, seq, r, field, htag, hseq, hfield, hfieldAt, -⟩ | ⟨-, hnone⟩ :=
    berDecodeField_at (· == 0x30) hkey.1
  case inr =>
    rw [hnone] at hbuf
    cases hbuf
  rw [hfield] at hbuf
  cases hbuf
  rw [hfieldAt.dataLen] at hversion
  obtain ⟨ver, b, _, hver, -⟩ | hnone := berDecodeINTEGER_at hfieldAt.content_at
  case inr =>
    rw [hnone] at hversion
    cases hversion
  rw [beq_iff_eq] at htag
  subst htag
  refine ⟨alg, key, after, seq, r, ver, b, hinfo, hseq, hver, ?_⟩
  have hparams : k.params.length = (ecParamsOf keyType s).len := by
    cases optional with
    | none => cases h
    | some pub =>
      obtain ⟨params, hread, h⟩ := bind_eq_ok.mp h
      have hlength := length_of_readAt (access_eq_ok.mp hread)
      have hk : k.params = params := by
        cases pub with
        | none =>
          obtain ⟨_, -, h⟩ := bind_eq_ok.mp h
          obtain ⟨_, -, h⟩ := bind_eq_ok.mp h
          cases h
          rfl
        | some slice =>
          obtain ⟨_, -, h⟩ := bind_eq_ok.mp h
          obtain ⟨_, -, h⟩ := bind_eq_ok.mp h
          obtain ⟨_, -, h⟩ := bind_eq_ok.mp h
          cases h
          rfl
      rw [hk, hlength]
  cases keyType with
  | ec =>
    refine ⟨?_, ?_⟩
    · obtain ⟨same, hsame, hcheck⟩ := bind_eq_ok.mp hcheck
      rw [check_eq_ok] at hcheck
      subst hcheck
      exact memcmpAt_true (drop_of_at_end hafter hend) hsame
    · rw [hparams, ← halg.2]
      rfl
  | edwards | montgomery | other => exact hparams.trans halg.2

/-- The low byte of a number. -/
theorem mod_of_ofNat_eq (h : UInt8.ofNat n = c) : n % 256 = c.toNat := by
  rw [← h, UInt8.toNat_ofNat']

/-- No `n` bytes in front of `ys` are a sequence that begins with an integer. -/
def NoSequence (n : Nat) (ys : List UInt8) : Prop :=
  ∀ key r seq r' ver b, key.length = n → key ++ r = ys → Tlv 0x30 seq r' key → ¬ Tlv 0x02 ver b seq

/-- Another tag is no sequence. -/
theorem noSequence_tag (hx : x ≠ 0x30) (n : Nat) (ys : List UInt8) : NoSequence n (x :: ys) :=
  fun _ _ _ _ _ _ _ heq hseq _ => hx (hseq.head heq)

/-- A sequence that is cut off is none. -/
theorem noSequence_long {seq₀ : List UInt8} (hlt : seq₀.length < 2 ^ 24) (hn : n < seq₀.length) :
    NoSequence n (tlv 0x30 seq₀) := by
  intro key r seq r' ver b hlen heq hseq _
  have hwhole := tlv_self 0x30 hlt
  have happend := hseq.append r
  rw [← heq] at hwhole
  obtain ⟨-, rfl, -⟩ := hwhole.unique happend
  obtain ⟨o, -, rfl⟩ := hseq
  simp only [length_cons, length_append] at hlen
  omega

/-- A sequence that does not begin with an integer. -/
theorem noSequence_inner (ha : a.toNat < 128) (hx : x ≠ 0x02) (n : Nat) (ys : List UInt8) :
    NoSequence n (0x30 :: a :: x :: ys) := by
  intro key r seq r' ver b _ heq hseq hver
  have hwhole := hseq.append r
  rw [heq] at hwhole
  obtain ⟨-, -, htail⟩ | ⟨rfl, -⟩ | ⟨rfl, -⟩ | ⟨rfl, -⟩ := hwhole.forms
  · exact hx (hver.head htail)
  all_goals exact absurd ha (by decide)

/-- No octet string around such a sequence is in front of `xs`. -/
def NoKey (xs : List UInt8) : Prop :=
  ∀ key r seq r' ver b, Tlv 0x04 key r xs → Tlv 0x30 seq r' key → ¬ Tlv 0x02 ver b seq

/-- Another tag is no private key. -/
theorem noKey_tag (hx : x ≠ 0x04) (xs : List UInt8) : NoKey (x :: xs) := by
  intro key r seq r' ver b hkey _ _
  obtain ⟨o, -, heq⟩ := hkey
  rw [List.cons.injEq] at heq
  exact hx heq.1

/-- By the forms of the length. -/
theorem noKey_forms {y z : UInt8}
    (hshort : a.toNat < 128 → NoSequence a.toNat (x :: y :: z :: xs))
    (hone : a = 0x81 → NoSequence x.toNat (y :: z :: xs))
    (htwo : a = 0x82 → ∀ n, NoSequence n (z :: xs))
    (hthree : a = 0x83 → ∀ n, NoSequence n xs) (t : UInt8) :
    NoKey (t :: a :: x :: y :: z :: xs) := by
  intro key r seq r' ver b hkey
  obtain ⟨ha, hlen, heq⟩ | ⟨ha, _, _, ⟨⟩, hlen, heq⟩ | ⟨ha, _, _, _, ⟨⟩, heq⟩ |
    ⟨ha, _, _, _, _, ⟨⟩, heq⟩ := hkey.forms
  · exact hshort ha key r seq r' ver b hlen heq
  · exact hone ha key r seq r' ver b hlen heq
  · exact htwo ha key.length key r seq r' ver b rfl heq
  · exact hthree ha key.length key r seq r' ver b rfl heq

/-- A low byte is another byte. -/
theorem ofNat_ne (h : n % 256 ≠ c.toNat) : UInt8.ofNat n ≠ c :=
  fun heq => h (mod_of_ofNat_eq heq)

/-- A low byte that is another tag than that of the private key. -/
theorem noKey_ofNat (h : n % 256 ≠ 4) (xs : List UInt8) : NoKey (.ofNat n :: xs) :=
  noKey_tag (ofNat_ne h) xs

/-- A low byte that is another tag than that of a sequence. -/
theorem noSequence_ofNat {m : Nat} (h : m % 256 ≠ 48) (n : Nat) (ys : List UInt8) :
    NoSequence n (.ofNat m :: ys) :=
  noSequence_tag (ofNat_ne h) n ys

section
variable {seq₀ : List UInt8} {J K : Nat}

/-- The octet string has a length of two bytes. -/
theorem noKey_two (hJ : seq₀.length = J) (hK : K = J + 4) (hlong : 256 ≤ J) (hlt : J < 65536)
    (m : Nat) (hm : m = 1 ∨ m = 2 ∨ m = 3) :
    NoKey ((0x04 :: 0x82 :: .ofNat (K / 256) :: .ofNat K :: 0x30 :: 0x82 :: .ofNat (J / 256) ::
      .ofNat J :: seq₀).drop m) := by
  have hsequence : tlv 0x30 seq₀ = 0x30 :: 0x82 :: .ofNat (J / 256) :: .ofNat J :: seq₀ := by
    rw [tlv, lengthOctets, hJ, if_neg (by omega), if_neg (by omega), if_pos hlt]
    rfl
  obtain rfl | rfl | rfl := hm
  · exact noKey_tag (by decide) _
  · -- The length of the octet string begins with 4.
    by_cases hfour : K / 256 = 4
    case neg => exact noKey_ofNat (by omega) _
    refine noKey_forms ?_ ?_ ?_ ?_ _
    · intro ha
      rw [← hsequence]
      exact noSequence_long (by omega) (by omega)
    · intro _
      exact noSequence_tag (by decide) _ _
    · intro ha n
      have hlow : K % 256 = 0x82 := mod_of_ofNat_eq ha
      exact noSequence_ofNat (by omega) _ _
    · intro ha n
      have hlow : K % 256 = 0x83 := mod_of_ofNat_eq ha
      exact noSequence_ofNat (by omega) _ _
  · by_cases hfour : K % 256 = 4
    case neg => exact noKey_ofNat hfour _
    refine noKey_forms ?_ ?_ ?_ ?_ _
    · intro _
      exact noSequence_tag (by decide) _ _
    all_goals
      intro ha
      cases ha

/-- The octet string has a length of three bytes. -/
theorem noKey_three (hJ : seq₀.length = J) (hK : K = J + 5) (hlong : 65536 ≤ J) (hlt : J < 2 ^ 24)
    (m : Nat) (hm : m = 1 ∨ m = 2 ∨ m = 3) :
    NoKey ((0x04 :: 0x83 :: .ofNat (K / 65536) :: .ofNat (K / 256) :: .ofNat K :: 0x30 :: 0x83 ::
      .ofNat (J / 65536) :: .ofNat (J / 256) :: .ofNat J :: seq₀).drop m) := by
  have hsequence : tlv 0x30 seq₀
      = 0x30 :: 0x83 :: .ofNat (J / 65536) :: .ofNat (J / 256) :: .ofNat J :: seq₀ := by
    rw [tlv, lengthOctets, hJ, if_neg (by omega), if_neg (by omega), if_neg (by omega)]
    rfl
  obtain rfl | rfl | rfl := hm
  · exact noKey_tag (by decide) _
  · -- The length of the octet string begins with 4.
    by_cases hfour : K / 65536 % 256 = 4
    case neg => exact noKey_ofNat hfour _
    refine noKey_forms ?_ ?_ ?_ ?_ _
    · intro _
      by_cases hlow : UInt8.ofNat K = 0x30
      · rw [hlow]
        exact noSequence_inner (by decide) (by decide) _ _
      · exact noSequence_tag hlow _ _
    · intro _
      rw [← hsequence]
      have hbyte := (UInt8.ofNat K).toNat_lt
      exact noSequence_long (by omega) (by omega)
    · intro _ n
      exact noSequence_tag (by decide) _ _
    · intro ha n
      exact noSequence_ofNat (by omega) _ _
  · -- The second byte of it is 4.
    by_cases hfour : K / 256 % 256 = 4
    case neg => exact noKey_ofNat hfour _
    refine noKey_forms ?_ ?_ ?_ ?_ _
    · intro ha
      rw [← hsequence]
      exact noSequence_long (by omega) (by omega)
    · intro _
      exact noSequence_tag (by decide) _ _
    · intro ha n
      have hlow : K % 256 = 0x82 := mod_of_ofNat_eq ha
      by_cases htop : UInt8.ofNat (J / 65536) = 0x30
      · rw [htop]
        refine noSequence_inner ?_ (ofNat_ne ?_) _ _
        · rw [UInt8.toNat_ofNat']
          show J / 256 % 256 < 128
          omega
        · show J % 256 ≠ 0x02
          omega
      · exact noSequence_tag htop _ _
    · intro ha n
      exact noSequence_ofNat (by omega) _ _

end

/-- Without its first bytes, an octet string around a sequence is none. -/
theorem noKey_shifted {seq₀ : List UInt8} (hlong : 5 ≤ seq₀.length)
    (hlt : (tlv 0x30 seq₀).length < 2 ^ 24) {m : Nat} (hm : m = 1 ∨ m = 2 ∨ m = 3) :
    NoKey ((tlv 0x04 (tlv 0x30 seq₀)).drop m) := by
  have hsize := length_tlv 0x30 seq₀
  generalize hK : (tlv 0x30 seq₀).length = K at hsize hlt
  generalize hJ : seq₀.length = J at hsize hlong
  rw [length_lengthOctets] at hsize
  rw [tlv, hK, tlv, hJ]
  unfold lengthOctets
  by_cases h1 : K < 128
  · have hJ1 : J < 128 := by omega
    have hlen : K = J + 2 := by split_ifs at hsize; omega
    rw [if_pos h1, if_pos hJ1]
    obtain rfl | rfl | rfl := hm
    · exact noKey_ofNat (by omega) _
    · exact noKey_tag (by decide) _
    · exact noKey_ofNat (by omega) _
  rw [if_neg h1]
  by_cases h2 : K < 256
  · rw [if_pos h2]
    obtain rfl | rfl | rfl := hm
    · exact noKey_tag (by decide) _
    · exact noKey_ofNat (by omega) _
    · exact noKey_tag (by decide) _
  rw [if_neg h2]
  by_cases h3 : K < 65536
  · rw [if_pos h3]
    by_cases hJ2 : J < 256
    · -- A length of one byte, inside one of two bytes.
      have hlen : K ≤ J + 3 := by split_ifs at hsize <;> omega
      obtain rfl | rfl | rfl := hm
      · exact noKey_tag (by decide) _
      · exact noKey_ofNat (by omega) _
      · exact noKey_ofNat (by omega) _
    · have hlen : K = J + 4 := by split_ifs at hsize <;> omega
      rw [if_neg (by omega), if_neg hJ2, if_pos (by omega)]
      exact noKey_two hJ hlen (by omega) (by omega) m hm
  rw [if_neg h3]
  by_cases hJ3 : J < 65536
  · -- A length of two bytes, inside one of three bytes.
    have hlen : K ≤ J + 4 := by split_ifs at hsize <;> omega
    obtain rfl | rfl | rfl := hm
    · exact noKey_tag (by decide) _
    · exact noKey_ofNat (by omega) _
    · exact noKey_ofNat (by omega) _
  · have hlen : K = J + 5 := by split_ifs at hsize <;> omega
    rw [if_neg (by omega), if_neg (by omega), if_neg hJ3]
    exact noKey_three hJ hlen (by omega) (by omega) m hm

/-- The identifier that is found behind a length of one byte. -/
theorem alg_forms {b : List UInt8} (h : Tlv 0x30 alg b (0x30 :: .ofNat n :: xs)) :
    alg.length = n % 256 ∧ n % 256 < 128 ∨ ∃ m, (m = 1 ∨ m = 2 ∨ m = 3) ∧ alg ++ b = xs.drop m := by
  obtain ⟨hshort, hlen, -⟩ | ⟨-, x, ys, rfl, -, heq⟩ | ⟨-, x, y, ys, rfl, heq⟩ |
    ⟨-, x, y, z, ys, rfl, heq⟩ := h.forms
  · rw [UInt8.toNat_ofNat'] at hshort hlen
    exact .inl ⟨hlen, hshort⟩
  · exact .inr ⟨1, .inl rfl, heq⟩
  · exact .inr ⟨2, .inr (.inl rfl), heq⟩
  · exact .inr ⟨3, .inr (.inr rfl), heq⟩

/-- A key with a longer algorithm identifier does not get its parameters back. -/
theorem derDecodeEcPrivateKey_long {k : EcPrivateKey} (hlong : 128 ≤ (ecAlg keyType params).length)
    (h : (ecEncoding keyType params raw value).length < 2 ^ 24)
    (hk : k.params.length = params.length) :
    derDecodeEcPrivateKey keyType (ecEncoding keyType params raw value)
      (ecEncoding keyType params raw value).length ≠ .ok (some k) := by
  intro hok
  have sizes := ec_sizes h
  have hdata := tlv_self 0x30 sizes.content_lt
  rw [← ecEncoding] at hdata
  obtain ⟨alg, key, after, seq, r, ver, b, hinfo, hseq, hver, hparams⟩ :=
    derDecodeEcPrivateKey_found (by omega) hdata hok
  obtain ⟨body, ver', b₁, b₂, b₃, rest, hbody, hver', halg, hkey, rfl⟩ := hinfo
  obtain ⟨-, rfl, rfl⟩ := hdata.unique hbody
  have hone : ([0] : List UInt8).length < 2 ^ 24 := by decide
  have hfirst := tlv_spec 0x02 hone
    (ecAlgId keyType params ++ tlv 0x04 (tlv 0x30 (ecKeyContent raw value)))
  rw [← append_assoc, ← privateKeyInfoContent] at hfirst
  obtain ⟨-, -, rfl⟩ := hfirst.unique hver'
  have halgSize := sizes.alg_lt
  by_cases hec : keyType = .ec
  · subst hec
    obtain ⟨hlen, hbyte⟩ | ⟨m, hm, heq⟩ := alg_forms halg
    · -- The low byte of the length is a shorter length.
      have hreturned : k.params.length = ulongSub alg.length 9 := hparams.2
      have hcontent : (ecAlg .ec params).length = 9 + params.length := length_append
      rw [ulongSub] at hreturned
      omega
    · -- The object identifier does not begin behind its first bytes.
      obtain ⟨ys, hys⟩ := hparams.1
      rw [append_nil, heq] at hys
      obtain rfl | rfl | rfl := hm <;> cases hys
  · have hcontent : ecAlg keyType params = params := by
      cases keyType with
      | ec => exact absurd rfl hec
      | edwards | montgomery | other => rfl
    have hreturned := hparams.length_eq hec
    rw [hcontent] at hlong halgSize
    rw [ecAlgId, hcontent, cons_append, cons_append] at halg
    obtain ⟨hlen, hbyte⟩ | ⟨m, hm, heq⟩ := alg_forms halg
    · omega
    · -- The identifier takes as many bytes of the private key as its length takes of it.
      have hb₂ : b₂ = (tlv 0x04 (tlv 0x30 (ecKeyContent raw value))).drop m := by
        have hdrop := congrArg (drop alg.length) heq
        rw [drop_left, drop_drop, drop_append, drop_eq_nil_of_le (by omega), nil_append] at hdrop
        rw [hdrop]
        congr 1
        omega
      have hkeyLong : 5 ≤ (ecKeyContent raw value).length := by
        have hversion : (tlv 0x02 [1]).length = 3 := rfl
        have hpos := (lengthOctets_spec sizes.value_lt).length_pos
        rw [ecKeyContent, length_append, length_append, length_tlv 0x04]
        omega
      rw [hb₂] at hkey
      exact noKey_shifted hkeyLong sizes.octets_lt hm _ _ _ _ _ _ hkey hseq hver

/-! ### Round trips -/

/-- The key is encoded, and every padding of the encoding is decoded to the same integers. -/
def RsaRoundTrips (k : RsaPrivateKey) : Prop :=
  ∃ data, berEncodeRsaPrivateKey k = .ok data ∧ ∀ pad, (data ++ pad).length < 2 ^ 64 →
      ∃ values, berDecodeRsaPrivateKey (data ++ pad) (data ++ pad).length
          = .ok (List.zipWith KeyAttribute.mk rsaPrivateTypes values) ∧
        List.Forall₂ SameInteger k.components values

def DsaRoundTrips (k : DsaPrivateKey) : Prop :=
  ∃ data, berEncodeDsaPrivateKey k = .ok data ∧ ∀ pad, (data ++ pad).length < 2 ^ 64 →
      ∃ values, berDecodeDsaPrivateKey (data ++ pad) (data ++ pad).length
          = .ok (List.zipWith KeyAttribute.mk (dsaParamTypes ++ [CKA_VALUE]) values) ∧
        List.Forall₂ SameInteger [k.prime1, k.prime2, k.base, k.privKey] values

def EcRoundTrips (keyType : EcKeyType) (k : EcPrivateKey) : Prop :=
  ∃ data, derEncodeEcPrivateKey keyType k = .ok data ∧ ∀ pad, (data ++ pad).length < 2 ^ 64 →
      derDecodeEcPrivateKey keyType (data ++ pad) (data ++ pad).length = .ok (some k)

/-- All integers come back with their values. -/
theorem forall₂_decoded (integers : List (List UInt8)) :
    Forall₂ SameInteger integers (integers.map decodedInteger) := by
  rw [forall₂_map_right_iff]
  exact forall₂_same.mpr fun data _ => sameInteger_decoded data

/-- RSA keys come back, with any padding. -/
theorem rsa_round_trips (h : (rsaEncoding k).length < 2 ^ 24) : RsaRoundTrips k :=
  ⟨rsaEncoding k, berEncodeRsaPrivateKey_ok h, fun _ hpad =>
    ⟨_, berDecodeRsaPrivateKey_encoding h hpad, forall₂_decoded _⟩⟩

/-- DSA keys come back, with any padding. -/
theorem dsa_round_trips {k : DsaPrivateKey} (h : (dsaEncoding k).length < 2 ^ 24) :
    DsaRoundTrips k :=
  ⟨dsaEncoding k, berEncodeDsaPrivateKey_ok h, fun _ hpad =>
    ⟨_, berDecodeDsaPrivateKey_encoding h hpad, forall₂_decoded _⟩⟩

/-- What an EC key needs: the length of the algorithm identifier is one byte, and `CKA_EC_POINT` is
in its shortest form. -/
def EcShort (keyType : EcKeyType) (k : EcPrivateKey) : Prop :=
  (ecAlg keyType k.params).length < 128 ∧
    (keyType = .ec → ∀ point ∈ k.point, ∃ raw, point = tlv 0x04 raw)

/-- A point comes back as it was exactly if it was in its shortest form. -/
theorem ecPoints_iff (hpoint : RawPoints keyType point raw)
    (hsize : ∀ bytes ∈ raw, (tlv 0x03 (0 :: bytes)).length < 2 ^ 24) :
    raw.map (ecPoint keyType) = point ↔
      (keyType = .ec → ∀ bytes ∈ point, ∃ raw, bytes = tlv 0x04 raw) := by
  cases raw with
  | none =>
    rw [hpoint.eq_none]
    refine iff_of_true rfl fun _ bytes hbytes => ?_
    cases hbytes
  | some raw =>
    obtain ⟨bytes, rfl, hraw⟩ := hpoint.eq_some
    rw [Option.map_some, Option.some.injEq]
    cases keyType with
    | ec =>
      constructor
      · intro heq _ bytes' hbytes'
        cases hbytes'
        exact ⟨raw, heq.symm⟩
      · intro h
        obtain ⟨raw', heq⟩ := h rfl bytes rfl
        have hlt := hsize raw rfl
        rw [length_tlv, length_cons] at hlt
        -- Another header takes at most three bytes from the point.
        have hraw' : raw'.length < 2 ^ 24 := by
          obtain ⟨o, ho, hbytes⟩ := hraw
          obtain ⟨a, octets, rfl, hfirst⟩ := ho.first
          have hlen := congrArg length (heq.symm.trans hbytes)
          rw [length_tlv, length_lengthOctets] at hlen
          simp only [length_cons, length_append, length_nil] at hlen
          split_ifs at hlen <;> omega
        have hshortest := tlv_self 0x04 hraw'
        rw [← heq] at hshortest
        obtain ⟨-, rfl, -⟩ := Tlv.unique hraw hshortest
        exact heq.symm
    | edwards | montgomery =>
      refine iff_of_true hraw.symm ?_
      intro h
      cases h
    | other => cases hraw

/-- An EC key comes back exactly if its identifier and its point are short. -/
theorem ec_round_trips_iff {k : EcPrivateKey} (htype : keyType ≠ .other)
    (hpoint : RawPoints keyType k.point raw)
    (h : (ecEncoding keyType k.params raw k.value).length < 2 ^ 24) :
    EcRoundTrips keyType k ↔ EcShort keyType k := by
  have hencode := derEncodeEcPrivateKey_ok htype hpoint h
  by_cases hshort : (ecAlg keyType k.params).length < 128
  · have hpoints := ecPoints_iff hpoint (ec_sizes h).point_lt
    constructor
    · rintro ⟨data, heq, hpad⟩
      rw [hencode, Except.ok.injEq] at heq
      subst heq
      have hsame := hpad [] (by rw [append_nil]; omega)
      rw [derDecodeEcPrivateKey_encoding htype hshort h, Except.ok.injEq,
        Option.some.injEq] at hsame
      exact ⟨hshort, hpoints.mp (congrArg EcPrivateKey.point hsame)⟩
    · intro hs
      refine ⟨_, hencode, fun pad _ => ?_⟩
      rw [derDecodeEcPrivateKey_encoding htype hshort h, hpoints.mpr hs.2]
  · refine iff_of_false ?_ fun hs => hshort hs.1
    rintro ⟨data, heq, hpad⟩
    rw [hencode, Except.ok.injEq] at heq
    subst heq
    have hdecode := hpad []
    rw [append_nil] at hdecode
    exact derDecodeEcPrivateKey_long (not_lt.mp hshort) h rfl (hdecode (by omega))

/-- Private keys whose encoding has less than 2^24 bytes: RSA and DSA keys come back, and EC keys
exactly if they are short. -/
theorem private_keys_round_trip_iff (rsa : RsaPrivateKey) (dsa : DsaPrivateKey)
    (keyType : EcKeyType) (k : EcPrivateKey) (raw : Option (List UInt8))
    (hrsa : (rsaEncoding rsa).length < 2 ^ 24) (hdsa : (dsaEncoding dsa).length < 2 ^ 24)
    (htype : keyType ≠ .other) (hpoint : RawPoints keyType k.point raw)
    (hec : (ecEncoding keyType k.params raw k.value).length < 2 ^ 24) :
    RsaRoundTrips rsa ∧ DsaRoundTrips dsa ∧ (EcRoundTrips keyType k ↔ EcShort keyType k) :=
  ⟨rsa_round_trips hrsa, dsa_round_trips hdsa, ec_round_trips_iff htype hpoint hec⟩

/-- Keys with components of one byte. -/
theorem private_keys_round_trip_small :
    RsaRoundTrips ⟨[3], [3], [3], [3], [3], [3], [3], [3]⟩ ∧ DsaRoundTrips ⟨[3], [3], [3], [3]⟩ ∧
      EcRoundTrips .ec ⟨[0x06, 0x01, 0x2a], some [0x04, 0x01, 0x04], [3]⟩ := by
  have hpoint : RawPoints .ec (some [0x04, 0x01, 0x04]) (some [0x04]) :=
    ⟨[0x01], .short 0x01 (by decide), rfl⟩
  have hall := private_keys_round_trip_iff ⟨[3], [3], [3], [3], [3], [3], [3], [3]⟩
    ⟨[3], [3], [3], [3]⟩ .ec ⟨[0x06, 0x01, 0x2a], some [0x04, 0x01, 0x04], [3]⟩ (some [0x04])
    (by decide) (by decide) (by decide) hpoint (by decide)
  refine ⟨hall.1, hall.2.1, hall.2.2.mpr ⟨by decide, fun _ point h => ?_⟩⟩
  cases h
  exact ⟨[0x04], rfl⟩

/-- `CKA_EC_PARAMS` of 119 bytes: the length of the algorithm identifier is 128, and its low byte
stands for another form of the length. -/
theorem ec_long_params_lost :
    ∃ data, derEncodeEcPrivateKey .ec ⟨List.replicate 119 0x05, none, [3]⟩ = .ok data ∧
      derDecodeEcPrivateKey .ec data data.length = .error (.rc .functionFailed) :=
  ⟨ecEncoding .ec (replicate 119 0x05) none [3], by decide +kernel, by decide +kernel⟩

end OpenCryptoki.Proofs.Common
