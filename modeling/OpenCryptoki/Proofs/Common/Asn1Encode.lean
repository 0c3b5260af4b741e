import OpenCryptoki.Common.Asn1Keys
import OpenCryptoki.Lib.Tlv

/-!
# `OpenCryptoki.Proofs.Common.Asn1Encode`: what the BER encoders produce

Every encoder computes a length first, allocates a buffer of that length and fills it. The theorems
say that the pieces fill it exactly, or leave room, and that the result is a field in its shortest
form.

- `berEncodeField_eq`: a field, or `CKR_FUNCTION_FAILED` from 2^24 bytes on.
- `berEncodeIntegers_eq`: a sequence of integers. Its buffer can be too long by one byte for each.
- `berEncodePrivateKeyInfo_eq`: the outer structure.
-/

set_option autoImplicit false

namespace OpenCryptoki.Proofs.Common

open Lib OpenCryptoki.Common List

/-! ### Fields -/

variable (tag : UInt8)

/-- The header is the tag and the length octets. -/
theorem berHeader_eq (n : Nat) : berHeader tag n = tag :: lengthOctets n := by
  have h8 : n >>> 8 = n / 256 := Nat.shiftRight_eq_div_pow n 8
  have h16 : n >>> 16 = n / 65536 := Nat.shiftRight_eq_div_pow n 16
  rw [berHeader, lengthOctets, h8, h16]
  split
  · rfl
  · split
    · rfl
    · show (if n < 65536 then _ else _) = tag :: if n < 65536 then _ else _
      split
      · rfl
      · rfl

/-- The length of a field, up to 24 bits of content. -/
theorem berEncodeFieldLen_eq (n : Nat) :
    berEncodeFieldLen n = if n < 2 ^ 24 then .ok (1 + (lengthOctets n).length + n)
        else .error (.rc .functionFailed) := by
  have h16 : 1 <<< 16 = 65536 := rfl
  have h24 : 1 <<< 24 = 2 ^ 24 := rfl
  unfold berEncodeFieldLen lengthOctets
  rw [h16, h24]
  by_cases h1 : n < 128
  · rw [if_pos h1, if_pos h1, if_pos (by omega)]
    rfl
  rw [if_neg h1, if_neg h1]
  by_cases h2 : n < 256
  · rw [if_pos h2, if_pos h2, if_pos (by omega)]
    rfl
  rw [if_neg h2, if_neg h2]
  by_cases h3 : n < 65536
  · rw [if_pos h3, if_pos h3, if_pos (by omega)]
    rfl
  rw [if_neg h3, if_neg h3]
  rfl

/-- A field is encoded, up to 24 bits of content. -/
theorem berEncodeField_eq (content : List UInt8) :
    berEncodeField tag content = if content.length < 2 ^ 24 then .ok (tlv tag content)
        else .error (.rc .functionFailed) := by
  rw [berEncodeField, berEncodeFieldLen_eq]
  split
  · -- The header and the content fill the buffer.
    rw [ok_bind, berHeader_eq]
    dsimp only
    generalize hheader : tag :: lengthOctets content.length = header
    have hlen : 1 + (lengthOctets content.length).length = header.length := by
      rw [← hheader, length_cons, add_comm]
    have hfirst : writeAt (replicate (header.length + content.length) (0 : UInt8)) 0 header
        = some (header ++ replicate content.length 0) :=
      writeAt_of_eq [] (replicate header.length 0) (replicate content.length 0)
        (replicate_append_replicate).symm rfl (length_replicate).symm
    have hsecond : writeAt (header ++ replicate content.length (0 : UInt8)) header.length
        content = some (header ++ content) := by
      rw [writeAt_of_eq header (replicate content.length 0) []
        (by rw [append_nil]) rfl (length_replicate).symm, append_nil]
    rw [hlen, hfirst, access_bind, hsecond, access_some, ← hheader]
    rfl
  · rw [error_bind]

variable {content buf data : List UInt8} {integers : List (List UInt8)}

/-- A content that is not too long is encoded. -/
theorem berEncodeField_ok (h : content.length < 2 ^ 24) :
    berEncodeField tag content = .ok (tlv tag content) := by
  rw [berEncodeField_eq, if_pos h]

/-- The length that is computed is that of the field. -/
theorem berEncodeFieldLen_ok (h : content.length < 2 ^ 24) :
    berEncodeFieldLen content.length = .ok (tlv tag content).length := by
  rw [berEncodeFieldLen_eq, if_pos h, length_tlv]

/-! ### Pieces of a buffer -/

/-- The next piece of a buffer in which `done` is written, and in front of `k` more bytes. -/
theorem appendPiece_eq (done piece : List UInt8) (k : Nat)
    (hbuf : buf = done ++ replicate (piece.length + k) 0) :
    appendPiece buf done.length piece
      = .ok (done ++ piece ++ replicate k 0, (done ++ piece).length) := by
  rw [appendPiece,
    writeAt_of_eq done (replicate piece.length 0) (replicate k 0)
      (by rw [hbuf, replicate_append_replicate]) rfl (length_replicate).symm,
    access_bind, append_assoc, length_append]

/-! ### Integers -/

/-- The content of an integer: a number whose first bit is set gets a zero byte in front. -/
def integerBytes (data : List UInt8) : List UInt8 :=
  List.replicate (integerPadding false (some data) data.length) 0 ++ data

/-- At most one zero is put in front of an integer. -/
theorem integerPadding_le (data : List UInt8) :
    integerPadding false (some data) data.length ≤ 1 := by
  unfold integerPadding
  dsimp only
  split
  · exact le_refl 1
  · exact Nat.zero_le 1

/-- The length of an integer with its padding. -/
theorem length_integerBytes (data : List UInt8) :
    (integerBytes data).length = integerPadding false (some data) data.length + data.length := by
  rw [integerBytes, length_append, length_replicate]

/-- An integer that is not too long is encoded. -/
theorem berEncodeINTEGER_ok (h : (integerBytes data).length < 2 ^ 24) :
    berEncodeINTEGER data = .ok (tlv 0x02 (integerBytes data)) := by
  have hlen := length_integerBytes data
  have hfits : ¬ data.length > 1 <<< 24 - 1 - integerPadding false (some data) data.length := by
    omega
  rw [berEncodeINTEGER, check_bind hfits]
  exact berEncodeField_ok 0x02 h

/-- A sequence of integers. -/
def integersBytes (integers : List (List UInt8)) : List UInt8 :=
  integers.flatMap fun data => tlv 0x02 (integerBytes data)

/-- Integers one after the other. -/
theorem integersBytes_cons (data : List UInt8) (rest : List (List UInt8)) :
    integersBytes (data :: rest) = tlv 0x02 (integerBytes data) ++ integersBytes rest := rfl

/-- The length of an integer that is computed without the data. -/
theorem berEncodeIntegerLen_none {n : Nat} (h : (tlv 0x02 (integerBytes data)).length ≤ n)
    (hn : n < 2 ^ 24) :
    ∃ k, berEncodeINTEGERLen none data.length
      = .ok ((tlv 0x02 (integerBytes data)).length + k) := by
  have hlen := length_integerBytes data
  have hpadding : integerPadding false (some data) data.length
      ≤ integerPadding true none data.length := by
    unfold integerPadding
    by_cases hempty : data.length = 0
    · rw [hempty]
      exact le_refl 0
    · have hone : (true && decide (data.length ≠ 0)) = true := by
        rw [Bool.true_and, decide_eq_true_iff]
        exact hempty
      rw [if_pos hone]
      exact integerPadding_le data
  have hle : integerPadding true none data.length ≤ 1 := by
    unfold integerPadding
    dsimp only
    split
    · exact le_refl 1
    · exact Nat.zero_le 1
  rw [length_tlv] at h ⊢
  rw [berEncodeINTEGERLen]
  generalize integerPadding true none data.length = padding at hpadding hle ⊢
  have hfits : ¬ data.length > 1 <<< 24 - 1 - padding := by
    omega
  have hheader : (lengthOctets (integerBytes data).length).length
      ≤ (lengthOctets (data.length + padding)).length := length_lengthOctets_mono (by omega)
  rw [check_bind hfits, berEncodeFieldLen_eq, if_pos (by omega)]
  refine ⟨_, congrArg Except.ok (Nat.add_sub_of_le ?_).symm⟩
  omega

/-- The length that is computed without the data is enough. -/
theorem integersLen_ok (h : (integersBytes integers).length < 2 ^ 24) :
    ∃ k, integersLen (integers.map length) = .ok ((integersBytes integers).length + k) := by
  induction integers with
  | nil => exact ⟨0, rfl⟩
  | cons data rest ih =>
    rw [integersBytes_cons, length_append] at h ⊢
    obtain ⟨k, hk⟩ := ih (by omega)
    obtain ⟨k', hk'⟩ := berEncodeIntegerLen_none (le_self_add) h
    refine ⟨k' + k, ?_⟩
    rw [map_cons, integersLen, hk', ok_bind, hk, ok_bind]
    congr 1
    omega

/-- The integers fill the front of a buffer. -/
theorem appendIntegers_eq (integers : List (List UInt8)) (done : List UInt8) (k : Nat)
    (h : (integersBytes integers).length < 2 ^ 24)
    (hbuf : buf = done ++ replicate ((integersBytes integers).length + k) 0) :
    appendIntegers buf done.length integers = .ok (done ++ integersBytes integers ++ replicate k 0,
          (done ++ integersBytes integers).length) := by
  induction integers generalizing buf done with
  | nil =>
    rw [hbuf, appendIntegers, integersBytes, flatMap_nil, append_nil, length_nil, zero_add]
  | cons data rest ih =>
    rw [integersBytes_cons, length_append] at h hbuf
    have hdata : (integerBytes data).length < 2 ^ 24 := by
      rw [length_tlv] at h
      omega
    rw [appendIntegers, berEncodeINTEGER_ok hdata, ok_bind,
      appendPiece_eq done _ _ (by rw [hbuf, add_assoc]), ok_bind]
    dsimp only
    rw [ih (done ++ tlv 0x02 (integerBytes data)) (by omega) rfl, integersBytes_cons,
      ← append_assoc]

/-- A sequence of integers is encoded. -/
theorem berEncodeIntegers_eq (h : (integersBytes integers).length < 2 ^ 24) :
    berEncodeIntegers integers = .ok (tlv 0x30 (integersBytes integers)) := by
  obtain ⟨k, hk⟩ := integersLen_ok h
  rw [berEncodeIntegers, hk, ok_bind]
  have happend := appendIntegers_eq integers [] k h (nil_append _).symm
  rw [length_nil, nil_append] at happend
  rw [happend, ok_bind]
  dsimp only
  rw [(at_start _ _).readAt, access_bind]
  exact berEncodeField_ok 0x30 h

/-! ### `PrivateKeyInfo` -/

/-- The content of a `PrivateKeyInfo`. -/
def privateKeyInfoContent (alg key : List UInt8) : List UInt8 :=
  tlv 0x02 [0] ++ alg ++ tlv 0x04 key

/-- A `PrivateKeyInfo` is encoded. -/
theorem berEncodePrivateKeyInfo_eq {alg key : List UInt8}
    (h : (privateKeyInfoContent alg key).length < 2 ^ 24) :
    berEncodePrivateKeyInfo alg key = .ok (tlv 0x30 (privateKeyInfoContent alg key)) := by
  have hsize : (privateKeyInfoContent alg key).length
      = (tlv 0x02 [0]).length + (alg.length + (tlv 0x04 key).length) := by
    simp only [privateKeyInfoContent, length_append]
    omega
  have hkey : key.length < 2 ^ 24 := by
    rw [length_tlv 0x04] at hsize
    omega
  have hversion : berEncodeINTEGERLen (some [0]) 1 = .ok (tlv 0x02 [0]).length := by decide
  have hversion' : berEncodeINTEGER [0] = .ok (tlv 0x02 [0]) := by decide
  have hfirst := appendPiece_eq [] (tlv 0x02 [0]) (alg.length + (tlv 0x04 key).length) rfl
  have hsecond := appendPiece_eq (tlv 0x02 [0]) alg (tlv 0x04 key).length rfl
  have hthird := appendPiece_eq (tlv 0x02 [0] ++ alg) (tlv 0x04 key) 0 rfl
  rw [nil_append, nil_append, length_nil] at hfirst
  rw [add_zero] at hthird
  rw [berEncodePrivateKeyInfo, hversion, ok_bind, berEncodeFieldLen_ok 0x04 hkey, ok_bind,
    hversion', ok_bind]
  rw [add_assoc, hfirst, ok_bind]
  dsimp only
  rw [hsecond, ok_bind, berEncodeOCTETSTRING, berEncodeField_ok 0x04 hkey, ok_bind]
  rw [hthird, ok_bind]
  dsimp only
  rw [(at_start _ _).readAt, access_bind]
  exact berEncodeField_ok 0x30 h

end OpenCryptoki.Proofs.Common
