import OpenCryptoki.Common.Asn1Keys
import OpenCryptoki.Lib.Tlv

/-!
# `OpenCryptoki.Proofs.Common.Asn1`: what the functions that decode BER accept

A function that decodes a field is told how many bytes to look at. `berDecodeField_cases` says what
it does if only some of them are there: it finds a header, or it refuses the bytes that it has
seen, or it reads behind the end. If all are there, `berDecodeField_at` says that it finds a field
in front of them, in the sense of `Tlv`, or fails, and `FieldAt` says where the parts of the field
are.

Fields that follow each other are found one after the other. `Remaining` is what is left of a
buffer.

- `berDecodePrivateKeyInfo_of`, `berDecodePrivateKeyInfo_at`: a `PrivateKeyInfo` is found, or the
  function fails.
- `berDecodeSpki_of`, `berDecodeSpki_at`: the same for a `SubjectPublicKeyInfo`.
-/

set_option autoImplicit false

namespace OpenCryptoki.Proofs.Common

open Lib OpenCryptoki.Common List

/-! ### Bytes of a length -/

/-- A property of every byte is one of 256 numbers. -/
theorem forall_byte {P : UInt8 → Prop} (h : ∀ n : Fin 256, P (.ofNat n)) (a : UInt8) : P a := by
  have ha := h ⟨a.toNat, a.toNat_lt⟩
  rwa [UInt8.ofNat_toNat] at ha

/-- The test for the short form of a length. -/
theorem and_top_bit_eq_zero : ∀ a : UInt8, a &&& 0x80 = 0 ↔ a.toNat < 128 :=
  forall_byte (by decide +kernel)

/-- The number of bytes in the long form of a length. -/
theorem toNat_and_low_bits : ∀ a : UInt8, (a &&& 0x7F).toNat = a.toNat % 128 :=
  forall_byte (by decide +kernel)

/-- A length of one byte. -/
theorem berLengthValue_one (a : UInt8) : berLengthValue [a] = a.toNat := by
  simp [berLengthValue]

/-- A byte is shifted in. -/
theorem shift_or_byte (n : Nat) (a : UInt8) : (n <<< 8) ||| a.toNat = n * 256 + a.toNat := by
  rw [← Nat.shiftLeft_add_eq_or_of_lt a.toNat_lt, Nat.shiftLeft_eq]

/-- The octets behind the first one of a length. -/
theorem lengthOctets_of_value {o : List UInt8} (hpos : 1 ≤ o.length) (hle : o.length ≤ 3) :
    LengthOctets (.ofNat (128 + o.length) :: o) (berLengthValue o) := by
  match o, hpos, hle with
  | [a], _, _ =>
    rw [berLengthValue_one]
    exact .one a
  | [a, b], _, _ =>
    have hvalue : berLengthValue [a, b] = a.toNat * 256 + b.toNat := by
      rw [← shift_or_byte, ← berLengthValue_one a]
      rfl
    rw [hvalue]
    exact .two a b
  | [a, b, c], _, _ =>
    have hvalue : berLengthValue [a, b, c] = (a.toNat * 256 + b.toNat) * 256 + c.toNat := by
      rw [← shift_or_byte, ← shift_or_byte, ← berLengthValue_one a]
      rfl
    rw [hvalue]
    exact .three a b c

/-! ### Decoding a field -/

/-- With `len` bytes to look at, a decoder refuses the bytes `xs`, and it sees that from bytes that
are there. -/
def Refused (tagOk : UInt8 → Bool) (xs : List UInt8) (len : Nat) : Prop :=
  len < 2 ∨ (∃ tag ys, xs = tag :: ys ∧ tagOk tag = false) ∨
    (∃ tag first ys, xs = tag :: first :: ys ∧ 128 ≤ first.toNat ∧
      (len < 2 + (first.toNat - 128) ∨ first.toNat < 129 ∨ 131 < first.toNat)) ∨
    ∃ tag h n ys, xs = tag :: (h ++ ys) ∧ LengthOctets h n ∧ len < 1 + h.length + n

variable {ys data : List UInt8} {tag : UInt8} {ptr len n : Nat} {tagOk : UInt8 → Bool}

/-- The octets of a length that follow its first byte. -/
theorem readAt_octets {mem : List UInt8} {first : UInt8} (hmem : mem.drop ptr = tag :: first :: ys)
    (n : Nat) :
    readAt mem (ptr + 2) n = if n ≤ ys.length then some (ys.take n) else none := by
  have hlen := congrArg length hmem
  rw [length_drop, length_cons, length_cons] at hlen
  have hys : mem.drop (ptr + 2) = ys := by
    rw [← drop_drop, hmem]
    rfl
  rw [readAt, hys]
  by_cases hn : n ≤ ys.length
  · rw [if_pos hn, if_pos (by omega)]
  · rw [if_neg hn, if_neg (by omega)]

/-- A length that is there is compared with the length of the data. -/
theorem berDecodeLength_octets {mem h : List UInt8} (hmem : mem.drop ptr = tag :: (h ++ ys))
    (ho : LengthOctets h n) :
    berDecodeLength mem ptr len
      = if 1 + h.length + n ≤ len then .ok ⟨ptr + (1 + h.length), n, 1 + h.length + n⟩
        else .error (.rc .functionFailed) := by
  obtain ⟨first, o, rfl, hfirst⟩ := ho.first
  rw [cons_append] at hmem
  have hget : mem[ptr + 1]? = some first := by
    rw [← getElem?_drop, hmem, getElem?_cons_succ, getElem?_cons_zero]
  unfold berDecodeLength
  rw [hget, access_bind, toNat_and_low_bits]
  obtain ⟨hshort, hnil⟩ | ⟨hlong, hpos, hle⟩ := hfirst
  · -- The short form.
    obtain rfl := eq_nil_of_length_eq_zero hnil
    obtain ⟨-, rfl, -⟩ := ho.unique (.short first hshort) (Eq.refl ([first] ++ ys))
    rw [if_pos ((and_top_bit_eq_zero first).mpr hshort), Nat.mod_eq_of_lt hshort]
    by_cases hfits : 1 + 1 + first.toNat > len
    · rw [check_bind_not (not_not.mpr hfits)]
      exact (if_neg (Nat.not_le_of_lt hfits)).symm
    · rw [check_bind hfits]
      exact (if_pos (not_lt.mp hfits)).symm
  · -- The long form, with the octets `o`.
    have hk : first.toNat % 128 = o.length := by omega
    have hvalue := lengthOctets_of_value hpos hle
    rw [← hlong, UInt8.ofNat_toNat] at hvalue
    obtain ⟨-, rfl, -⟩ := ho.unique hvalue (Eq.refl (first :: o ++ ys))
    have hread : readAt mem (ptr + 2) o.length = some o := by
      rw [readAt_octets hmem, if_pos (by rw [length_append]; omega), take_left]
    rw [if_neg (fun h => by have := (and_top_bit_eq_zero first).mp h; omega), hk, length_cons]
    by_cases hfits : 1 + (o.length + 1) + berLengthValue o ≤ len
    · rw [check_bind (by omega), check_bind (by omega), hread, access_bind, check_bind (by omega),
        if_pos hfits]
      simp only [add_comm 1 o.length, add_assoc, add_comm, add_left_comm]
    · rw [if_neg hfits]
      by_cases hroom : 1 + 1 + o.length > len
      · rw [check_bind_not (not_not.mpr hroom)]
      · rw [check_bind hroom, check_bind (by omega), hread, access_bind, check_bind_not (by omega)]

section
variable {mem xs : List UInt8}

/-- The cases of a decoder that has found its tag. -/
theorem berDecodeLength_cases (hmem : mem.drop ptr = tag :: xs) (hlen : 2 ≤ len) :
    (∃ h n ys, LengthOctets h n ∧ xs = h ++ ys) ∨
      ((∃ first ys, xs = first :: ys ∧ 128 ≤ first.toNat ∧
          (len < 2 + (first.toNat - 128) ∨ first.toNat < 129 ∨ 131 < first.toNat)) ∧
        berDecodeLength mem ptr len = .error (.rc .functionFailed)) ∨
      (xs.length + 1 < len ∧ berDecodeLength mem ptr len = .error .fault) := by
  have hfirst : mem[ptr + 1]? = xs[0]? := by
    rw [← getElem?_drop, hmem, getElem?_cons_succ]
  unfold berDecodeLength
  rw [hfirst]
  match xs with
  | [] => exact .inr (.inr ⟨hlen, rfl⟩)
  | first :: ys =>
    rw [getElem?_cons_zero, access_bind, toNat_and_low_bits]
    -- The top bit tells the short form from the long one.
    by_cases hshort : first.toNat < 128
    · exact .inl ⟨[first], _, ys, .short first hshort, rfl⟩
    have hfirst_lt := first.toNat_lt
    have hk : first.toNat % 128 = first.toNat - 128 := by omega
    rw [if_neg (fun h => hshort ((and_top_bit_eq_zero first).mp h)), hk]
    by_cases hroom : 1 + 1 + (first.toNat - 128) > len
    · rw [check_bind_not (not_not.mpr hroom)]
      exact .inr (.inl ⟨⟨first, ys, rfl, by omega, by omega⟩, rfl⟩)
    rw [check_bind hroom]
    by_cases hcount : first.toNat - 128 = 1 ∨ first.toNat - 128 = 2 ∨ first.toNat - 128 = 3
    · by_cases hthere : first.toNat - 128 ≤ ys.length
      · have htake : (ys.take (first.toNat - 128)).length = first.toNat - 128 :=
          length_take_of_le hthere
        have hoctets := lengthOctets_of_value (o := ys.take (first.toNat - 128)) (by omega)
          (by omega)
        rw [htake, show 128 + (first.toNat - 128) = first.toNat by omega, UInt8.ofNat_toNat]
          at hoctets
        refine .inl ⟨_, _, ys.drop (first.toNat - 128), hoctets, ?_⟩
        rw [cons_append, take_append_drop]
      -- The count is accepted by `len`, but the bytes end before it.
      · rw [check_bind hcount, readAt_octets hmem, if_neg hthere]
        refine .inr (.inr ⟨?_, rfl⟩)
        rw [length_cons]
        omega
    · rw [check_bind_not hcount]
      exact .inr (.inl ⟨⟨first, ys, rfl, by omega, by omega⟩, rfl⟩)

/-- A field whose header is there is compared with the length of the data. -/
theorem berDecodeField_octets {mem h : List UInt8} (htag : tagOk tag = true)
    (hmem : mem.drop ptr = tag :: (h ++ ys)) (ho : LengthOctets h n) (len : Nat) :
    berDecodeField tagOk mem ptr len
      = if 1 + h.length + n ≤ len then .ok ⟨ptr + (1 + h.length), n, 1 + h.length + n⟩
        else .error (.rc .functionFailed) := by
  have hget : mem[ptr]? = some tag := by
    rw [← add_zero ptr, ← getElem?_drop, hmem, getElem?_cons_zero]
  have hpos := ho.length_pos
  unfold berDecodeField
  by_cases hlen : len < 2
  · rw [check_bind_not (not_not.mpr hlen), if_neg (by omega)]
  · rw [check_bind hlen, hget, access_bind, check_bind htag, berDecodeLength_octets hmem ho]

/-- What a decoder does with `len` bytes to look at, of which only the first ones need be there. -/
theorem berDecodeField_cases (tagOk : UInt8 → Bool) (mem : List UInt8) (ptr len : Nat) :
    (∃ tag h n ys, tagOk tag = true ∧ LengthOctets h n ∧ mem.drop ptr = tag :: (h ++ ys) ∧
        1 + h.length + n ≤ len ∧
        berDecodeField tagOk mem ptr len = .ok ⟨ptr + (1 + h.length), n, 1 + h.length + n⟩) ∨
      (Refused tagOk (mem.drop ptr) len ∧
        berDecodeField tagOk mem ptr len = .error (.rc .functionFailed)) ∨
      ((mem.drop ptr).length < len ∧ berDecodeField tagOk mem ptr len = .error .fault) := by
  unfold berDecodeField
  by_cases hlen : len < 2
  · rw [check_bind_not (not_not.mpr hlen)]
    exact .inr (.inl ⟨.inl hlen, rfl⟩)
  have hget : mem[ptr]? = (mem.drop ptr)[0]? := by rw [getElem?_drop, add_zero]
  rw [check_bind hlen, hget]
  match hmem : mem.drop ptr with
  | [] =>
    refine .inr (.inr ⟨?_, rfl⟩)
    rw [length_nil]
    omega
  | tag :: xs =>
    rw [getElem?_cons_zero, access_bind]
    by_cases htag : tagOk tag = true
    · rw [check_bind htag]
      obtain ⟨h, n, ys, ho, rfl⟩ | ⟨⟨first, ys, rfl, hlong⟩, heq⟩ | ⟨hshort, heq⟩ :=
        berDecodeLength_cases hmem (not_lt.mp hlen)
      · rw [berDecodeLength_octets hmem ho]
        by_cases hfits : 1 + h.length + n ≤ len
        · exact .inl ⟨tag, h, n, ys, htag, ho, rfl, hfits, if_pos hfits⟩
        · exact .inr (.inl ⟨.inr (.inr (.inr ⟨tag, h, n, ys, rfl, ho, not_le.mp hfits⟩)),
            if_neg hfits⟩)
      · exact .inr (.inl ⟨.inr (.inr (.inl ⟨tag, first, ys, rfl, hlong⟩)), heq⟩)
      · exact .inr (.inr ⟨hshort, heq⟩)
    · rw [check_bind_not htag]
      rw [Bool.not_eq_true] at htag
      exact .inr (.inl ⟨.inr (.inl ⟨tag, xs, rfl, htag⟩), rfl⟩)

/-- A decoder fails on bytes that it refuses. -/
theorem berDecodeField_refused {mem : List UInt8} (h : Refused tagOk (mem.drop ptr) len) :
    berDecodeField tagOk mem ptr len = .error (.rc .functionFailed) := by
  by_cases hlen : len < 2
  · rw [berDecodeField, check_bind_not (not_not.mpr hlen)]
  -- The tag is there in all the other cases.
  obtain ⟨tag, xs, hmem⟩ : ∃ tag xs, mem.drop ptr = tag :: xs := by
    obtain hshort | ⟨tag, ys, hmem, -⟩ | ⟨tag, first, ys, hmem, -⟩ | ⟨tag, o, n, ys, hmem, -⟩ := h
    · exact absurd hshort hlen
    · exact ⟨tag, ys, hmem⟩
    · exact ⟨tag, first :: ys, hmem⟩
    · exact ⟨tag, o ++ ys, hmem⟩
  have hget : mem[ptr]? = some tag := by
    rw [← add_zero ptr, ← getElem?_drop, hmem, getElem?_cons_zero]
  by_cases htag : tagOk tag = true
  case neg =>
    rw [berDecodeField, check_bind hlen, hget, access_bind, check_bind_not htag]
  obtain hshort | ⟨tag', ys, hmem', hbad⟩ | ⟨tag', first, ys, hmem', hlong, hcount⟩ |
    ⟨tag', o, n, ys, hmem', ho, hfits⟩ := h
  · exact absurd hshort hlen
  · rw [hmem, List.cons.injEq] at hmem'
    rw [← hmem'.1, htag] at hbad
    cases hbad
  · have hfirst : mem[ptr + 1]? = some first := by
      rw [← getElem?_drop, hmem', getElem?_cons_succ, getElem?_cons_zero]
    have hk : first.toNat % 128 = first.toNat - 128 := by
      have := first.toNat_lt
      omega
    have hnot : ¬ first &&& 0x80 = 0 := by
      rw [and_top_bit_eq_zero]
      omega
    rw [berDecodeField, check_bind hlen, hget, access_bind, check_bind htag, berDecodeLength,
      hfirst, access_bind, if_neg hnot]
    rw [toNat_and_low_bits, hk]
    by_cases hroom : 1 + 1 + (first.toNat - 128) > len
    · rw [check_bind_not (not_not.mpr hroom)]
    · rw [check_bind hroom, check_bind_not (by omega)]
  · have htag' : tag = tag' := by
      rw [hmem, List.cons.injEq] at hmem'
      exact hmem'.1
    subst htag'
    rw [berDecodeField_octets htag hmem' ho, if_neg (Nat.not_le_of_lt hfits)]

variable {content rest : List UInt8} {field : BerField}

/-- Bytes that begin with a field of the right tag are not refused. -/
theorem not_refused_of_tlv {xs : List UInt8} (htag : tagOk tag = true)
    (h : Tlv tag content rest xs) : ¬ Refused tagOk (xs ++ ys) xs.length := by
  obtain ⟨o, ho, rfl⟩ := h
  have hpos := ho.length_pos
  have hsize : (tag :: (o ++ (content ++ rest))).length
      = 1 + o.length + content.length + rest.length := by
    simp only [length_cons, length_append]
    omega
  rw [hsize]
  rintro (hlen | ⟨t, zs, heq, hbad⟩ | ⟨t, first, zs, heq, hlong, hcount⟩ |
    ⟨t, o', n, zs, heq, ho', hlen⟩)
  · omega
  · cases heq
    rw [htag] at hbad
    cases hbad
  · -- The first byte of the length says how many octets follow.
    obtain ⟨a, octets, rfl, hfirst⟩ := ho.first
    rw [length_cons] at hcount
    cases heq
    omega
  · rw [cons_append, append_assoc, List.cons.injEq] at heq
    obtain ⟨rfl, rfl, -⟩ := ho.unique ho' heq.2
    omega

/-- Where the parts of a decoded field are. -/
structure FieldAt (mem : List UInt8) (ptr : Nat) (field : BerField) (content rest : List UInt8) :
    Prop where
  content_at : At mem field.data content
  dataLen : field.dataLen = content.length
  rest_at : At mem (ptr + field.fieldLen) rest
  data_end : field.data + content.length = ptr + field.fieldLen

/-- The content of a field can be read. -/
theorem FieldAt.readAt {mem : List UInt8} (h : FieldAt mem ptr field content rest) :
    readAt mem field.data field.dataLen = some content := by
  rw [h.dataLen]
  exact h.content_at.readAt

/-- The field that a decoder finds in front of `rest`. -/
theorem fieldAt_of_octets {mem o : List UInt8}
    (hat : At mem ptr (tag :: (o ++ (content ++ rest)))) :
    FieldAt mem ptr ⟨ptr + (1 + o.length), content.length, 1 + o.length + content.length⟩ content
      rest := by
  have hcontent := hat.tail.right
  refine ⟨?_, rfl, ?_, ?_⟩
  · rw [← add_assoc]
    exact hcontent.left
  · have hrest := hcontent.right
    rwa [show ptr + 1 + o.length + content.length = ptr + (1 + o.length + content.length) by omega]
      at hrest
  · show ptr + (1 + o.length) + content.length = ptr + (1 + o.length + content.length)
    omega

/-- What stands at a place begins the bytes from there on. -/
theorem drop_of_at (hat : At mem ptr xs) : ∃ ys, mem.drop ptr = xs ++ ys := by
  obtain ⟨front, back, rfl, rfl⟩ := hat
  exact ⟨back, drop_left⟩

/-- What stands at the end is all bytes from there on. -/
theorem drop_of_at_end (hat : At mem ptr xs) (hend : ptr + xs.length = mem.length) :
    mem.drop ptr = xs := by
  obtain ⟨ys, hdrop⟩ := drop_of_at hat
  have hlen := congrArg length hdrop
  rw [length_drop, length_append] at hlen
  have hys : ys = [] := eq_nil_of_length_eq_zero (by omega)
  rw [hdrop, hys, append_nil]

/-- A decoder that looks at bytes that are all there finds a field, or it fails. -/
theorem berDecodeField_at (tagOk : UInt8 → Bool) (hat : At mem ptr xs) :
    (∃ tag content rest field, tagOk tag = true ∧ Tlv tag content rest xs ∧
        berDecodeField tagOk mem ptr xs.length = .ok field ∧ FieldAt mem ptr field content rest ∧
        field.fieldLen + rest.length = xs.length) ∨
      ((∀ tag content rest, tagOk tag = true → ¬ Tlv tag content rest xs) ∧
        berDecodeField tagOk mem ptr xs.length = .error (.rc .functionFailed)) := by
  obtain ⟨ys, hdrop⟩ := drop_of_at hat
  obtain ⟨tag, o, n, zs, htag, ho, hmem, hfits, heq⟩ | ⟨hrefused, heq⟩ | ⟨hshort, heq⟩ :=
    berDecodeField_cases tagOk mem ptr xs.length
  · -- The content ends before the bytes do.
    rw [hdrop] at hmem
    obtain ⟨k, hk⟩ : ∃ k, xs.length = (tag :: o).length + k :=
      ⟨xs.length - (1 + o.length), by rw [length_cons]; omega⟩
    have hxs := congrArg (take xs.length) hmem
    rw [take_left, hk, ← cons_append, take_length_add_append] at hxs
    have hlen := congrArg length hxs
    rw [length_append, length_cons] at hlen
    have hn : n ≤ (zs.take k).length := by omega
    generalize zs.take k = body at hxs hlen hn
    obtain ⟨content, rest, rfl, rfl⟩ : ∃ content rest, body = content ++ rest ∧
      content.length = n :=
      ⟨body.take n, body.drop n, (take_append_drop _ _).symm, length_take_of_le hn⟩
    rw [cons_append] at hxs
    refine .inl ⟨tag, content, rest, _, htag, ⟨o, ho, hxs⟩, heq, fieldAt_of_octets (hxs ▸ hat), ?_⟩
    show 1 + o.length + content.length + rest.length = xs.length
    rw [hlen, length_append]
    omega
  · rw [hdrop] at hrefused
    exact .inr ⟨fun tag content rest htag htlv => not_refused_of_tlv htag htlv hrefused, heq⟩
  · rw [hdrop, length_append] at hshort
    omega

/-- A decoder finds a field that is there. -/
theorem berDecodeField_tlv (tagOk : UInt8 → Bool) {mem xs : List UInt8} (hat : At mem ptr xs)
    (htag : tagOk tag = true) (htlv : Tlv tag content rest xs) :
    ∃ field, berDecodeField tagOk mem ptr xs.length = .ok field ∧
      FieldAt mem ptr field content rest ∧ field.fieldLen + rest.length = xs.length := by
  obtain ⟨tag', content', rest', field, -, htlv', heq, hfield, hlen⟩ | ⟨hnone, -⟩ :=
    berDecodeField_at tagOk hat
  · obtain ⟨-, rfl, rfl⟩ := htlv.unique htlv'
    exact ⟨field, heq, hfield, hlen⟩
  · exact absurd htlv (hnone tag content rest htag)

/-! ### Integers -/

/-- An integer without its first byte, if that is zero. -/
def stripZero : List UInt8 → List UInt8
  | 0 :: xs => xs
  | xs => xs

/-- Only a zero is stripped. -/
theorem stripZero_cons_of_ne {x : UInt8} (h : x ≠ 0) (xs : List UInt8) :
    stripZero (x :: xs) = x :: xs := by
  unfold stripZero
  split
  · next heq =>
    cases heq
    exact absurd rfl h
  · rfl

/-- An integer is a field whose content loses a leading zero. -/
theorem berDecodeINTEGER_of_field {mem : List UInt8}
    (heq : berDecodeField (· == 0x02) mem ptr len = .ok field)
    (hfield : FieldAt mem ptr field content rest) :
    ∃ field', berDecodeINTEGER mem ptr len = .ok field' ∧ field'.fieldLen = field.fieldLen ∧
      FieldAt mem ptr field' (stripZero content) rest := by
  rw [berDecodeINTEGER, heq, ok_bind]
  match content, hfield with
  | [], hfield =>
    rw [if_neg (by rw [hfield.dataLen]; exact lt_irrefl 0)]
    exact ⟨field, rfl, rfl, hfield⟩
  | x :: xs, hfield =>
    rw [if_pos (by rw [hfield.dataLen]; exact Nat.succ_pos _), hfield.content_at.getElem?,
      access_bind]
    by_cases hx : x = 0
    · subst hx
      rw [if_pos rfl]
      have hend := hfield.data_end
      have hlen := hfield.dataLen
      rw [length_cons] at hend hlen
      refine ⟨_, rfl, rfl, hfield.content_at.tail, ?_, hfield.rest_at, ?_⟩
      · show field.dataLen - 1 = xs.length
        omega
      · show field.data + 1 + xs.length = ptr + field.fieldLen
        omega
    · rw [if_neg hx, stripZero_cons_of_ne hx]
      exact ⟨field, rfl, rfl, hfield⟩

/-- An integer that is there. -/
theorem berDecodeINTEGER_tlv {mem xs : List UInt8} (hat : At mem ptr xs)
    (htlv : Tlv 0x02 content rest xs) :
    ∃ field, berDecodeINTEGER mem ptr xs.length = .ok field ∧
      FieldAt mem ptr field (stripZero content) rest ∧
      field.fieldLen + rest.length = xs.length := by
  obtain ⟨field, heq, hfield, hlen⟩ := berDecodeField_tlv (· == 0x02) hat rfl htlv
  obtain ⟨field', heq', hsize, hfield'⟩ := berDecodeINTEGER_of_field heq hfield
  exact ⟨field', heq', hfield', by rw [hsize, hlen]⟩

/-- An integer is found, or the decoder fails. -/
theorem berDecodeINTEGER_at (hat : At mem ptr xs) :
    (∃ content rest field, Tlv 0x02 content rest xs ∧
        berDecodeINTEGER mem ptr xs.length = .ok field ∧
        FieldAt mem ptr field (stripZero content) rest ∧
        field.fieldLen + rest.length = xs.length) ∨
      berDecodeINTEGER mem ptr xs.length = .error (.rc .functionFailed) := by
  obtain ⟨tag, content, rest, field, htag, htlv, heq, hfield, hlen⟩ | ⟨-, heq⟩ :=
    berDecodeField_at (· == 0x02) hat
  · obtain ⟨field', heq', hsize, hfield'⟩ := berDecodeINTEGER_of_field heq hfield
    rw [beq_iff_eq] at htag
    subst htag
    exact .inl ⟨content, rest, field', htlv, heq', hfield', by rw [hsize, hlen]⟩
  · rw [berDecodeINTEGER, heq, error_bind]
    exact .inr rfl

end

/-! ### Fields one after the other -/

/-- A difference that does not wrap around. -/
theorem ulongSub_of_le {a b : Nat} (h : b ≤ a) (ha : a < 2 ^ 64) : ulongSub a b = a - b := by
  rw [ulongSub]
  omega

/-- Of the `bufLen` bytes at `buf`, those from `offset` on are `xs`. -/
structure Remaining (mem : List UInt8) (buf bufLen offset : Nat) (xs : List UInt8) : Prop where
  bytes_at : At mem (buf + offset) xs
  size : offset + xs.length = bufLen

namespace Remaining

variable {mem xs content rest : List UInt8} {buf bufLen offset : Nat} {field : BerField}

/-- All of the buffer is left. -/
theorem start (h : At mem buf xs) (hlen : bufLen = xs.length) : Remaining mem buf bufLen 0 xs :=
  ⟨h, by rw [hlen, zero_add]⟩

/-- The length that the functions compute for what remains. -/
theorem ulongSub_eq (r : Remaining mem buf bufLen offset xs) (hlt : bufLen < 2 ^ 64) :
    ulongSub bufLen offset = xs.length := by
  have hsize := r.size
  rw [ulongSub_of_le (by omega) hlt]
  omega

/-- What is left behind the next field. -/
theorem next (r : Remaining mem buf bufLen offset xs)
    (hfield : FieldAt mem (buf + offset) field content rest)
    (hlen : field.fieldLen + rest.length = xs.length) :
    Remaining mem buf bufLen (offset + field.fieldLen) rest := by
  have hsize := r.size
  refine ⟨?_, by omega⟩
  rw [← add_assoc]
  exact hfield.rest_at

end Remaining

/-! ### `PrivateKeyInfo` -/

/-- `data` begins with a `PrivateKeyInfo` that has the algorithm identifier `alg` and the private
key `key`. The content of the identifier is followed by `after`, up to the end of the data. -/
def IsPrivateKeyInfo (data alg key after : List UInt8) : Prop :=
  ∃ body ver b₁ b₂ b₃ rest, Tlv 0x30 body rest data ∧ Tlv 0x02 ver b₁ body ∧ Tlv 0x30 alg b₂ b₁ ∧
    Tlv 0x04 key b₃ b₂ ∧ after = b₂ ++ rest

/-- A slice is where `xs` is. -/
def Shows (mem : List UInt8) (s : Slice) (xs : List UInt8) : Prop :=
  At mem s.ptr xs ∧ s.len = xs.length

/-- A `PrivateKeyInfo` in front is found. -/
theorem berDecodePrivateKeyInfo_of {mem alg key after : List UInt8} (hat : At mem 0 data)
    (hlt : data.length < 2 ^ 64) (h : IsPrivateKeyInfo data alg key after) :
    ∃ s t, berDecodePrivateKeyInfo mem data.length = .ok (s, t) ∧ Shows mem s alg ∧
      Shows mem t key ∧ At mem s.ptr (alg ++ after) ∧
      s.ptr + (alg ++ after).length = data.length ∧
      ∃ b, Tlv 0x04 key b after ∧ t.ptr + (key ++ b).length = data.length := by
  obtain ⟨body, ver, b₁, b₂, b₃, rest, hdata, hver, halg, hkey, rfl⟩ := h
  obtain ⟨outer, houter, houterAt, houterLen⟩ := berDecodeField_tlv (· == 0x30) hat rfl hdata
  have hbody : outer.dataLen < 2 ^ 64 := by
    have hend := houterAt.data_end
    rw [houterAt.dataLen]
    omega
  have r₀ : Remaining mem outer.data outer.dataLen 0 body :=
    .start houterAt.content_at houterAt.dataLen
  obtain ⟨version, hversion, hversionAt, hversionLen⟩ := berDecodeINTEGER_tlv r₀.bytes_at hver
  have r₁ := r₀.next hversionAt hversionLen
  rw [zero_add] at r₁
  obtain ⟨alg', halg', halgAt, halgLen⟩ := berDecodeField_tlv (· == 0x30) r₁.bytes_at rfl halg
  have r₂ := r₁.next halgAt halgLen
  obtain ⟨key', hkey', hkeyAt, hkeyLen⟩ := berDecodeField_tlv (· == 0x04) r₂.bytes_at rfl hkey
  have hend := houterAt.data_end
  have halgEnd := halgAt.data_end
  have hkeyEnd := hkeyAt.data_end
  have hsize := r₂.size
  rw [houterAt.dataLen] at hsize
  refine ⟨⟨alg'.data, alg'.dataLen⟩, ⟨key'.data, key'.dataLen⟩, ?_,
    ⟨halgAt.content_at, halgAt.dataLen⟩, ⟨hkeyAt.content_at, hkeyAt.dataLen⟩, ?_, ?_, b₃ ++ rest,
    hkey.append rest, ?_⟩
  · have hne : ¬ data.length = 0 := by
      have htwo := hdata.two_le_length
      omega
    rw [← houterAt.dataLen, add_zero] at hversion
    rw [← r₁.ulongSub_eq hbody] at halg'
    rw [← r₂.ulongSub_eq hbody] at hkey'
    unfold berDecodePrivateKeyInfo berDecodeSEQUENCE berDecodeOCTETSTRING
    rw [check_bind hne, houter, ok_bind, hversion, ok_bind]
    dsimp only
    rw [halg', ok_bind, hkey', ok_bind]
  · -- The identifier, what follows it in the sequence, and what follows the sequence.
    have hrest := houterAt.rest_at
    have hnext := r₂.bytes_at
    rw [← add_assoc, ← halgEnd] at hnext
    refine halgAt.content_at.append (hnext.append ?_)
    rwa [show alg'.data + alg.length + b₂.length = 0 + outer.fieldLen by omega]
  · show alg'.data + (alg ++ (b₂ ++ rest)).length = data.length
    simp only [length_append]
    omega
  · show key'.data + (key ++ (b₃ ++ rest)).length = data.length
    simp only [length_append]
    omega

/-- The decoder finds a `PrivateKeyInfo`, or it fails. -/
theorem berDecodePrivateKeyInfo_at {mem : List UInt8} (hat : At mem 0 data)
    (hlt : data.length < 2 ^ 64) :
    (∃ alg key after, IsPrivateKeyInfo data alg key after) ∨
      berDecodePrivateKeyInfo mem data.length = .error (.rc .functionFailed) := by
  unfold berDecodePrivateKeyInfo berDecodeSEQUENCE berDecodeOCTETSTRING
  by_cases hne : ¬ data.length = 0
  case neg => exact .inr (by rw [check_bind_not hne])
  rw [check_bind hne]
  obtain ⟨_, body, rest, outer, htag, hdata, houter, houterAt, houterLen⟩ | ⟨-, houter⟩ :=
    berDecodeField_at (· == 0x30) hat
  case inr => exact .inr (by rw [houter, error_bind])
  rw [beq_iff_eq] at htag
  have hbody : outer.dataLen < 2 ^ 64 := by
    have hend := houterAt.data_end
    rw [houterAt.dataLen]
    omega
  have r₀ : Remaining mem outer.data outer.dataLen 0 body :=
    .start houterAt.content_at houterAt.dataLen
  rw [houter, ok_bind]
  have hbodyLen := houterAt.dataLen
  -- Each field begins where the one before it ended, with what is left of the sequence.
  obtain ⟨ver, b₁, version, hver, hversion, hversionAt, hversionLen⟩ | hversion :=
    berDecodeINTEGER_at r₀.bytes_at <;> rw [← hbodyLen, add_zero] at hversion
  case inr => exact .inr (by rw [hversion, error_bind])
  have r₁ := r₀.next hversionAt hversionLen
  rw [zero_add] at r₁
  rw [hversion, ok_bind]
  dsimp only
  have halg := berDecodeField_at (· == 0x30) r₁.bytes_at
  rw [← r₁.ulongSub_eq hbody] at halg
  obtain ⟨_, alg, b₂, algField, halgTag, halgTlv, halg, halgAt, halgLen⟩ | ⟨-, halg⟩ := halg
  case inr => exact .inr (by rw [halg, error_bind])
  rw [beq_iff_eq] at halgTag
  rw [r₁.ulongSub_eq hbody] at halgLen
  have r₂ := r₁.next halgAt halgLen
  have hkey := berDecodeField_at (· == 0x04) r₂.bytes_at
  rw [← r₂.ulongSub_eq hbody] at hkey
  obtain ⟨_, key, b₃, keyField, hkeyTag, hkeyTlv, -, -, -⟩ | ⟨-, hkey⟩ := hkey
  case inr => exact .inr (by rw [halg, ok_bind, hkey, error_bind])
  rw [beq_iff_eq] at hkeyTag
  subst htag halgTag hkeyTag
  exact .inl ⟨alg, key, b₂ ++ rest, body, ver, b₁, b₂, b₃, rest, hdata, hver, halgTlv, hkeyTlv, rfl⟩

/-! ### `SubjectPublicKeyInfo` -/

/-- The algorithm identifier `alg` begins with an object identifier of `n + 2` bytes. -/
def BeginsWithOid (alg : List UInt8) (n : Nat) : Prop :=
  ∃ tag len xs, alg = tag :: len :: xs ∧ len.toNat = n ∧ n ≤ xs.length

/-- `data` begins with what `ber_decode_SPKI` takes for a `SubjectPublicKeyInfo`: the identifier and
the bit string follow the header of the outer sequence, but need not be inside it. -/
def IsSpki (data alg : List UInt8) (n : Nat) (bits after : List UInt8) : Prop :=
  ∃ content rest b, Tlv 0x30 content rest data ∧ Tlv 0x30 alg after (content ++ rest) ∧
    BeginsWithOid alg n ∧ Tlv 0x03 bits b after ∧ bits ≠ []

/-- What follows the header of the outer sequence. -/
theorem spki_inner {mem content rest : List UInt8} {field : BerField} (hlt : data.length < 2 ^ 64)
    (hfield : FieldAt mem 0 field content rest)
    (hlen : field.fieldLen + rest.length = data.length) :
    At mem (field.fieldLen - field.dataLen) (content ++ rest) ∧
      ulongAdd (ulongSub data.length field.fieldLen) field.dataLen = (content ++ rest).length := by
  have hend := hfield.data_end
  have hdata := hfield.dataLen
  constructor
  · have hboth := hfield.content_at.append (by rw [hend]; exact hfield.rest_at)
    rwa [show field.fieldLen - field.dataLen = field.data by omega]
  · rw [ulongSub_of_le (by omega) hlt, ulongAdd, length_append]
    omega

/-- A bit string that is there. -/
theorem berDecodeBITSTRING_tlv {mem content rest xs : List UInt8} (hat : At mem ptr xs)
    (htlv : Tlv 0x03 content rest xs) (hne : content ≠ []) :
    ∃ field, berDecodeBITSTRING mem ptr xs.length = .ok field ∧
      FieldAt mem ptr field content rest ∧ field.fieldLen + rest.length = xs.length := by
  obtain ⟨field, heq, hfield, hlen⟩ := berDecodeField_tlv (· == 0x03) hat rfl htlv
  have hpos : ¬ field.dataLen < 1 := by
    rw [hfield.dataLen, Nat.lt_one_iff, length_eq_zero_iff]
    exact hne
  refine ⟨field, ?_, hfield, hlen⟩
  rw [berDecodeBITSTRING, heq, ok_bind, check_bind hpos]

/-- A bit string is found, or the decoder fails. -/
theorem berDecodeBITSTRING_at {mem xs : List UInt8} (hat : At mem ptr xs) :
    (∃ content rest field, Tlv 0x03 content rest xs ∧ content ≠ [] ∧
        berDecodeBITSTRING mem ptr xs.length = .ok field ∧ FieldAt mem ptr field content rest ∧
        field.fieldLen + rest.length = xs.length) ∨
      berDecodeBITSTRING mem ptr xs.length = .error (.rc .functionFailed) := by
  obtain ⟨_, content, rest, field, htag, htlv, heq, hfield, hlen⟩ | ⟨-, heq⟩ :=
    berDecodeField_at (· == 0x03) hat
  case inr => exact .inr (by rw [berDecodeBITSTRING, heq, error_bind])
  rw [beq_iff_eq] at htag
  subst htag
  by_cases hne : content = []
  · have hempty : field.dataLen < 1 := by
      rw [hfield.dataLen, hne]
      exact one_pos
    exact .inr (by rw [berDecodeBITSTRING, heq, ok_bind, check_bind_not (not_not.mpr hempty)])
  · obtain ⟨field, heq, hfield, hlen⟩ := berDecodeBITSTRING_tlv hat htlv hne
    exact .inl ⟨content, rest, field, htlv, hne, heq, hfield, hlen⟩

/-- A `SubjectPublicKeyInfo` in front is found. -/
theorem berDecodeSpki_of {mem alg bits after : List UInt8} (hat : At mem 0 data)
    (hlt : data.length < 2 ^ 64) (h : IsSpki data alg n bits after) :
    ∃ spki, berDecodeSpki mem data.length = .ok spki ∧ Shows mem spki.algOid (alg.take (n + 2)) ∧
      Shows mem spki.param (alg.drop (n + 2)) ∧ Shows mem spki.key bits.tail ∧
      At mem spki.algOid.ptr (alg ++ after) ∧
      spki.algOid.ptr + (alg ++ after).length = data.length := by
  obtain ⟨content, rest, b, hdata, halg, ⟨tag, len, xs, rfl, rfl, hn⟩, hbits, hne⟩ := h
  -- The fields are found from the outside in: the sequence, the identifier and the bit string.
  obtain ⟨outer, houter, houterAt, houterLen⟩ := berDecodeField_tlv (· == 0x30) hat rfl hdata
  obtain ⟨hinner, hinnerLen⟩ := spki_inner hlt houterAt houterLen
  obtain ⟨id, hid, hidAt, hidLen⟩ := berDecodeField_tlv (· == 0x30) hinner rfl halg
  obtain ⟨bitStr, hbitStr, hbitStrAt, -⟩ := berDecodeBITSTRING_tlv hidAt.rest_at hbits hne
  have hafter : ulongSub (content ++ rest).length id.fieldLen = after.length := by
    rw [ulongSub_of_le (by omega) (by rw [length_append]; have := houterAt.data_end; omega)]
    omega
  have hlenAt : mem[id.data + 1]? = some len := hidAt.content_at.tail.getElem?
  have hdataLen := hidAt.dataLen
  simp only [length_cons] at hdataLen
  -- The identifier is split behind the object identifier, whose length is its second byte.
  have hsplit := hidAt.content_at
  rw [← take_append_drop (len.toNat + 2) (tag :: len :: xs)] at hsplit
  have htake : ((tag :: len :: xs).take (len.toNat + 2)).length = len.toNat + 2 :=
    length_take_of_le (by simp only [length_cons]; omega)
  refine ⟨⟨⟨id.data, len.toNat + 2⟩, ⟨id.data + (len.toNat + 2), id.dataLen - (len.toNat + 2)⟩,
    ⟨bitStr.data + 1, bitStr.dataLen - 1⟩⟩, ?_, ⟨hsplit.left, htake.symm⟩, ⟨?_, ?_⟩, ?_, ?_, ?_⟩
  · have htwo : ¬ id.dataLen < 2 := by omega
    have hfits : ¬ len.toNat + 2 > id.dataLen := by omega
    rw [← hafter] at hbitStr
    unfold berDecodeSpki berDecodeSEQUENCE
    rw [houter, ok_bind]
    dsimp only
    rw [hinnerLen, hid, ok_bind, check_bind htwo, hlenAt, access_bind, check_bind hfits, hbitStr,
      ok_bind]
  · have hright := hsplit.right
    rwa [htake] at hright
  · show id.dataLen - (len.toNat + 2) = _
    rw [length_drop, hidAt.dataLen]
  · obtain ⟨unused, key, rfl⟩ := exists_cons_of_ne_nil hne
    have hbitsLen := hbitStrAt.dataLen
    rw [length_cons] at hbitsLen
    refine ⟨hbitStrAt.content_at.tail, ?_⟩
    show bitStr.dataLen - 1 = key.length
    omega
  · refine hidAt.content_at.append ?_
    rw [hidAt.data_end]
    exact hidAt.rest_at
  · have hend := houterAt.data_end
    have hidEnd := hidAt.data_end
    have houterData := houterAt.dataLen
    rw [length_append] at hidLen
    rw [length_append]
    show id.data + ((tag :: len :: xs).length + after.length) = data.length
    omega

/-- The decoder finds a `SubjectPublicKeyInfo`, or it fails. -/
theorem berDecodeSpki_at {mem : List UInt8} (hat : At mem 0 data) (hlt : data.length < 2 ^ 64) :
    (∃ alg n bits after, IsSpki data alg n bits after) ∨
      berDecodeSpki mem data.length = .error (.rc .functionFailed) := by
  unfold berDecodeSpki berDecodeSEQUENCE
  obtain ⟨_, content, rest, outer, htag, hdata, houter, houterAt, houterLen⟩ | ⟨-, houter⟩ :=
    berDecodeField_at (· == 0x30) hat
  case inr => exact .inr (by rw [houter, error_bind])
  rw [beq_iff_eq] at htag
  obtain ⟨hinner, hinnerLen⟩ := spki_inner hlt houterAt houterLen
  rw [houter, ok_bind]
  dsimp only
  rw [hinnerLen]
  obtain ⟨_, alg, after, id, halgTag, halg, hid, hidAt, hidLen⟩ | ⟨-, hid⟩ :=
    berDecodeField_at (· == 0x30) hinner
  case inr => exact .inr (by rw [hid, error_bind])
  rw [beq_iff_eq] at halgTag
  rw [hid, ok_bind]
  have hdataLen := hidAt.dataLen
  match alg, halg, hidAt, hdataLen with
  | [], _, _, hdataLen | [_], _, _, hdataLen =>
    have hshort : id.dataLen < 2 := by
      simp only [length_cons, length_nil] at hdataLen
      omega
    exact .inr (by rw [check_bind_not (not_not.mpr hshort)])
  | tag :: len :: xs, halg, hidAt, hdataLen =>
    simp only [length_cons] at hdataLen
    have hlenAt : mem[id.data + 1]? = some len := hidAt.content_at.tail.getElem?
    have htwo : ¬ id.dataLen < 2 := by omega
    rw [check_bind htwo, hlenAt, access_bind]
    -- The length of the object identifier is taken from the data, so it is checked.
    by_cases hfits : len.toNat + 2 > id.dataLen
    · exact .inr (by rw [check_bind_not (not_not.mpr hfits)])
    rw [check_bind hfits]
    have hafter : ulongSub (content ++ rest).length id.fieldLen = after.length := by
      rw [ulongSub_of_le (by omega) (by rw [length_append]; have := houterAt.data_end; omega)]
      omega
    rw [hafter]
    obtain ⟨bits, b, bitStr, hbits, hne, -⟩ | hbits := berDecodeBITSTRING_at hidAt.rest_at
    case inr => exact .inr (by rw [hbits, error_bind])
    subst htag halgTag
    exact .inl ⟨_, len.toNat, bits, after, content, rest, b, hdata, halg,
      ⟨tag, len, xs, rfl, rfl, by omega⟩, hbits, hne⟩

/-! ### EC keys -/

/-- What follows the check of the algorithm identifier in `der_decode_ECPrivateKey`. -/
def decodeEcKey (keyType : EcKeyType) (mem : List UInt8) (parm key : Slice) (dataLen : Nat) :
    Except Stop (Option EcPrivateKey) := do
  let buf ← berDecodeSEQUENCE mem key.ptr key.len
  let version ← berDecodeINTEGER mem buf.data buf.dataLen
  let offset := version.fieldLen
  let priv ← berDecodeOCTETSTRING mem (buf.data + offset) (ulongSub buf.dataLen offset)
  let offset := offset + priv.fieldLen
  let optional ← decodeEcPublicKey mem buf.data buf.dataLen offset dataLen
  match optional with
  | none     => .ok none
  | some pub => do
    let params ← access (readAt mem parm.ptr parm.len)
    let point ←
      match pub with
      | none       => .ok none
      | some slice => do
        let point ← buildEcPoint keyType mem slice
        .ok (some point)
    let value ← access (readAt mem priv.data priv.dataLen)
    .ok (some ⟨params, point, value⟩)

end OpenCryptoki.Proofs.Common
