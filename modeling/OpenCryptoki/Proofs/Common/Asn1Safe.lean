import OpenCryptoki.Proofs.Common.Asn1
import OpenCryptoki.Proofs.Common.Asn1Encode

/-!
# `OpenCryptoki.Proofs.Common.Asn1Safe`: memory accesses of the functions that decode keys

The functions that decode a field stay inside the bytes that they are told to look at:
`safe_berDecodeField` and the lemmas that follow it. What can go wrong is the comparison of the
algorithm identifier with an object identifier. It reads as many bytes as the object identifier has,
whatever the length of the content is (`compare_inside_iff`).

`ber_decode_DSAPrivateKey` also subtracts the length of the object identifier from the length of the
content. If the comparison has gone on behind the content, the difference wraps around and the
integers are looked for without an end: `IntegersInside`.

- `berDecodeRsaPrivateKey_inside_iff` and the five lemmas like it: when each function stays inside.
- `decoders_inside_iff`: all of them together.
- `yields_…`: the attributes are copies of parts of the data.
-/

set_option autoImplicit false

namespace OpenCryptoki.Proofs.Common

open Lib OpenCryptoki.Common List

/-! ### Fields inside a range -/

/-- A field of the `len` bytes at `ptr`: its content begins behind a header and ends where the field
ends. -/
structure FieldInside (ptr len : Nat) (field : BerField) : Prop where
  data_end : field.data + field.dataLen = ptr + field.fieldLen
  header : ptr + 2 ≤ field.data
  fits : field.fieldLen ≤ len

section
variable {mem : List UInt8} {ptr len : Nat}

/-- A field is looked for inside the bytes, and is inside. -/
theorem safe_berDecodeField (tagOk : UInt8 → Bool) (h : ptr + len ≤ mem.length) :
    Safe (berDecodeField tagOk mem ptr len) (FieldInside ptr len) := by
  obtain ⟨tag, o, n, ys, -, ho, -, hfits, heq⟩ | ⟨-, heq⟩ | ⟨hshort, -⟩ :=
    berDecodeField_cases tagOk mem ptr len
  · have hpos := ho.length_pos
    rw [heq]
    refine ⟨?_, ?_, hfits⟩
    · show ptr + (1 + o.length) + n = ptr + (1 + o.length + n)
      omega
    · show ptr + 2 ≤ ptr + (1 + o.length)
      omega
  · rw [heq]
    exact Safe.rc _
  · rw [length_drop] at hshort
    omega

/-- The content of a `SEQUENCE`. -/
theorem safe_berDecodeSEQUENCE (hlt : mem.length < 2 ^ 64) (h : ptr + len ≤ mem.length) :
    Safe (berDecodeSEQUENCE mem ptr len)
      fun seq => seq.data + seq.dataLen ≤ mem.length ∧ seq.dataLen < 2 ^ 64 := by
  refine (safe_berDecodeField _ h).mono fun seq hseq => ?_
  have hend := hseq.data_end
  have hfits := hseq.fits
  omega

/-- A byte inside the data can be read. -/
theorem safe_readByte {i : Nat} (h : i < mem.length) :
    Safe (access mem[i]? : Except Stop UInt8) fun _ => True := by
  rw [getElem?_eq_getElem h]
  trivial

/-- An integer is looked for inside the bytes, and is inside. -/
theorem safe_berDecodeINTEGER (h : ptr + len ≤ mem.length) :
    Safe (berDecodeINTEGER mem ptr len) (FieldInside ptr len) := by
  refine (safe_berDecodeField _ h).bind fun field hfield => ?_
  have hend := hfield.data_end
  have hheader := hfield.header
  have hfits := hfield.fits
  split
  · refine (safe_readByte (by omega)).bind fun first _ => ?_
    split
    · refine ⟨?_, ?_, hfits⟩
      · show field.data + 1 + (field.dataLen - 1) = ptr + field.fieldLen
        omega
      · show ptr + 2 ≤ field.data + 1
        omega
    · exact hfield
  · exact hfield

/-- A bit string is inside and has its first byte. -/
theorem safe_berDecodeBITSTRING (h : ptr + len ≤ mem.length) :
    Safe (berDecodeBITSTRING mem ptr len)
      fun field => FieldInside ptr len field ∧ 1 ≤ field.dataLen := by
  refine (safe_berDecodeField _ h).bind fun field hfield => ?_
  exact (Safe.check _).bind fun _ hpos => ⟨hfield, not_lt.mp hpos⟩

/-- A choice is looked for inside the bytes, and is inside. -/
theorem safe_berDecodeCHOICE (constructed : Bool) (h : ptr + len ≤ mem.length) :
    Safe (berDecodeCHOICE mem ptr len constructed) fun r => FieldInside ptr len r.1 := by
  refine (safe_berDecodeField _ h).bind fun field hfield => ?_
  have hend := hfield.data_end
  have hheader := hfield.header
  have hfits := hfield.fits
  exact (safe_readByte (by omega)).bind fun tag _ => hfield

/-- A value inside the data can be copied. -/
theorem safe_buildAttribute (type : Nat) (h : ptr + len ≤ mem.length) :
    Safe (buildAttribute mem type ptr len) fun _ => True :=
  (Safe.read h).bind fun _ _ => trivial

end

/-! ### Sequences of integers -/

section
variable {mem : List UInt8} {buf bufLen : Nat} (h : buf + bufLen ≤ mem.length)
  (hlt : bufLen < 2 ^ 64)
include h hlt

variable {offset : Nat}

/-- The next integer in a buffer. -/
theorem safe_nextInteger (hoffset : offset ≤ bufLen) :
    Safe (berDecodeINTEGER mem (buf + offset) (ulongSub bufLen offset))
      (FieldInside (buf + offset) (bufLen - offset)) := by
  rw [ulongSub_of_le hoffset hlt]
  exact safe_berDecodeINTEGER (by omega)

/-- The first pass stays inside the buffer. -/
theorem safe_skipIntegers (n : Nat) (hoffset : offset ≤ bufLen) :
    Safe (skipIntegers mem buf bufLen n offset) fun offset' => offset' ≤ bufLen := by
  induction n generalizing offset with
  | zero => exact hoffset
  | succ n ih =>
    refine (safe_nextInteger h hlt hoffset).bind fun field hfield => ?_
    have hfits := hfield.fits
    exact ih (by omega)

/-- The second pass stays inside the buffer. -/
theorem safe_buildIntegers (types : List Nat) (hoffset : offset ≤ bufLen) :
    Safe (buildIntegers mem buf bufLen types offset) fun _ => True := by
  induction types generalizing offset with
  | nil => trivial
  | cons type types ih =>
    refine (safe_nextInteger h hlt hoffset).bind fun field hfield => ?_
    have hend := hfield.data_end
    have hfits := hfield.fits
    refine (safe_buildAttribute type (by omega)).bind fun attr _ => ?_
    exact (ih (by omega)).bind fun attrs _ => trivial

end

/-! ### Comparisons with an object identifier -/

variable {xs alg after : List UInt8} {key : Slice}

/-- A comparison with the bytes `xs`, which go up to the end of the data, and what follows it. -/
theorem compare_inside_iff {α : Type} {mem oid : List UInt8} {ptr : Nat} {k : Except Stop α}
    (hpos : 0 < oid.length) (hat : At mem ptr xs) (hend : ptr + xs.length = mem.length) :
    (do
      let same ← memcmpAt mem ptr oid
      check (same = true) .functionFailed
      k) ≠ .error .fault ↔ oid.length ≤ xs.length ∧ (oid <+: xs → k ≠ .error .fault) := by
  by_cases hlen : oid.length ≤ xs.length
  case neg =>
    have hcmp : memcmpAt mem ptr oid = .error .fault := by
      have hread : readAt mem ptr oid.length = none := if_neg (by omega)
      rw [memcmpAt, hread]
      rfl
    rw [hcmp, error_bind]
    exact iff_of_false (fun h => h rfl) fun h => hlen h.1
  have hread : memcmpAt mem ptr oid = .ok (xs.take oid.length == oid) := by
    have hfront := hat
    rw [← take_append_drop oid.length xs] at hfront
    have hget := hfront.left.readAt
    rw [length_take_of_le hlen] at hget
    rw [memcmpAt, hget, access_bind]
  rw [hread, ok_bind]
  by_cases hsame : oid <+: xs
  · have htake : (xs.take oid.length == oid) = true := by
      rw [beq_iff_eq]
      exact (prefix_iff_eq_take.mp hsame).symm
    rw [check_bind htake]
    exact ⟨fun h => ⟨hlen, fun _ => h⟩, fun h => h.2 hsame⟩
  · have hdiffer : ¬ (xs.take oid.length == oid) = true := by
      rw [beq_iff_eq]
      exact fun h => hsame (prefix_iff_eq_take.mpr h.symm)
    rw [check_bind_not hdiffer]
    refine iff_of_true ?_ ⟨hlen, fun h => absurd h hsame⟩
    intro h
    cases h

/-- The parts of a `PrivateKeyInfo` are determined. -/
theorem IsPrivateKeyInfo.unique {data key alg' key' after' : List UInt8}
    (h : IsPrivateKeyInfo data alg key after) (h' : IsPrivateKeyInfo data alg' key' after') :
    alg = alg' ∧ key = key' ∧ after = after' := by
  obtain ⟨body, ver, b₁, b₂, b₃, rest, hdata, hver, halg, hkey, rfl⟩ := h
  obtain ⟨body', ver', b₁', b₂', b₃', rest', hdata', hver', halg', hkey', rfl⟩ := h'
  obtain ⟨-, rfl, rfl⟩ := hdata.unique hdata'
  obtain ⟨-, -, rfl⟩ := hver.unique hver'
  obtain ⟨-, rfl, rfl⟩ := halg.unique halg'
  obtain ⟨-, rfl, -⟩ := hkey.unique hkey'
  exact ⟨rfl, rfl, rfl⟩

/-- The parts of a `SubjectPublicKeyInfo` are determined. -/
theorem IsSpki.unique {data bits alg' bits' after' : List UInt8} {n n' : Nat}
    (h : IsSpki data alg n bits after) (h' : IsSpki data alg' n' bits' after') :
    alg = alg' ∧ n = n' ∧ bits = bits' ∧ after = after' := by
  obtain ⟨content, rest, b, hdata, halg, ⟨tag, len, xs, rfl, rfl, -⟩, hbits, -⟩ := h
  obtain ⟨content', rest', b', hdata', halg', ⟨tag', len', xs', rfl, rfl, -⟩, hbits', -⟩ := h'
  obtain ⟨-, rfl, rfl⟩ := hdata.unique hdata'
  obtain ⟨-, heq, rfl⟩ := halg.unique halg'
  obtain ⟨-, rfl, -⟩ := hbits.unique hbits'
  cases heq
  exact ⟨rfl, rfl, rfl, rfl⟩

/-- A slice with content is inside. -/
theorem Shows.le_length {mem : List UInt8} {s : Slice} (h : Shows mem s xs) :
    s.ptr + s.len ≤ mem.length := by
  rw [h.2]
  exact h.1.le_length

section
variable {α : Type} {data : List UInt8} (hlt : data.length < 2 ^ 64)
include hlt

variable {P : List UInt8 → List UInt8 → Prop}

/-- A function that begins with a `PrivateKeyInfo`, in front of `rest`: `P` is what it needs to stay
inside the data. -/
theorem privateKeyInfo_inside_iff {mem rest : List UInt8} (hmem : mem = data ++ rest)
    {f : Slice × Slice → Except Stop α}
    (hf : ∀ alg key after s t, IsPrivateKeyInfo data alg key after → Shows mem s alg →
      Shows mem t key → At mem s.ptr (alg ++ (after ++ rest)) →
      s.ptr + (alg ++ (after ++ rest)).length = mem.length →
      (f (s, t) ≠ .error .fault ↔ P alg (after ++ rest))) :
    (berDecodePrivateKeyInfo mem data.length >>= f) ≠ .error .fault ↔
      ∀ alg key after, IsPrivateKeyInfo data alg key after → P alg (after ++ rest) := by
  subst hmem
  have hat := at_start data rest
  obtain ⟨alg, key, after, hinfo⟩ | heq := berDecodePrivateKeyInfo_at hat hlt
  · obtain ⟨s, t, heq, halg, hkey, hafter, hend, -⟩ := berDecodePrivateKeyInfo_of hat hlt hinfo
    have hboth : At (data ++ rest) s.ptr (alg ++ (after ++ rest)) := by
      rw [← append_assoc]
      refine hafter.append ?_
      rw [hend]
      simpa only [zero_add] using (at_self (data ++ rest)).right
    have hsize : s.ptr + (alg ++ (after ++ rest)).length = (data ++ rest).length := by
      simp only [length_append] at hend ⊢
      omega
    rw [heq, ok_bind, hf alg key after s t hinfo halg hkey hboth hsize]
    constructor
    · intro h alg' key' after' hinfo'
      obtain ⟨rfl, rfl, rfl⟩ := hinfo.unique hinfo'
      exact h
    · intro h
      exact h alg key after hinfo
  · rw [heq, error_bind]
    refine iff_of_true nofun fun alg key after hinfo => ?_
    obtain ⟨s, t, hok, -⟩ := berDecodePrivateKeyInfo_of hat hlt hinfo
    rw [hok] at heq
    cases heq

/-- A function that begins with a `SubjectPublicKeyInfo`. -/
theorem spki_inside_iff {f : Spki → Except Stop α}
    (hf : ∀ alg n bits after spki, IsSpki data alg n bits after →
      Shows data spki.algOid (alg.take (n + 2)) → Shows data spki.param (alg.drop (n + 2)) →
      Shows data spki.key bits.tail → At data spki.algOid.ptr (alg ++ after) →
      spki.algOid.ptr + (alg ++ after).length = data.length →
        (f spki ≠ .error .fault ↔ P alg after)) :
    (berDecodeSpki data data.length >>= f) ≠ .error .fault ↔
      ∀ alg n bits after, IsSpki data alg n bits after → P alg after := by
  have hat := at_self data
  obtain ⟨alg, n, bits, after, hinfo⟩ | heq := berDecodeSpki_at hat hlt
  · obtain ⟨spki, heq, hoid, hparam, hkey, hafter, hend⟩ := berDecodeSpki_of hat hlt hinfo
    rw [heq, ok_bind, hf alg n bits after spki hinfo hoid hparam hkey hafter hend]
    constructor
    · intro h alg' n' bits' after' hinfo'
      obtain ⟨rfl, rfl, rfl, rfl⟩ := hinfo.unique hinfo'
      exact h
    · intro h
      exact h alg n bits after hinfo
  · rw [heq, error_bind]
    refine iff_of_true nofun fun alg n bits after hinfo => ?_
    obtain ⟨spki, hok, -⟩ := berDecodeSpki_of hat hlt hinfo
    rw [hok] at heq
    cases heq

end

/-! ### RSA keys -/

/-- The content of the algorithm identifier and what follows it have at least `n` bytes. -/
def AlgReaches (n : Nat) (data : List UInt8) : Prop :=
  ∀ alg key after, IsPrivateKeyInfo data alg key after → n ≤ (alg ++ after).length

/-- The same for a `SubjectPublicKeyInfo`. -/
def SpkiAlgReaches (n : Nat) (data : List UInt8) : Prop :=
  ∀ alg m bits after, IsSpki data alg m bits after → n ≤ (alg ++ after).length

/-- A `SEQUENCE` whose integers are gone over before anything else. -/
theorem safe_sequence {α : Type} {mem : List UInt8} {ptr len : Nat} (hlt : mem.length < 2 ^ 64)
    (h : ptr + len ≤ mem.length) (n : Nat) {f : BerField → Except Stop α}
    (hf : ∀ buf : BerField, buf.data + buf.dataLen ≤ mem.length → buf.dataLen < 2 ^ 64 →
      Safe (f buf) fun _ => True) :
    Safe (do
      let buf ← berDecodeSEQUENCE mem ptr len
      let offset ← skipIntegers mem buf.data buf.dataLen n 0
      check (¬ offset > buf.dataLen) .functionFailed
      f buf) fun _ => True := by
  refine (safe_berDecodeSEQUENCE hlt h).bind fun buf hbuf => ?_
  refine (safe_skipIntegers hbuf.1 hbuf.2 n (Nat.zero_le buf.dataLen)).bind fun offset _ => ?_
  exact (Safe.check _).bind fun _ _ => hf buf hbuf.1 hbuf.2

/-- When the identifier of an RSA private key is compared inside. -/
theorem berDecodeRsaPrivateKey_inside_iff {data : List UInt8} (hlt : data.length < 2 ^ 64) :
    berDecodeRsaPrivateKey data data.length ≠ .error .fault ↔ AlgReaches 11 data := by
  have hmem := (append_nil data).symm
  refine (privateKeyInfo_inside_iff hlt hmem (P := fun alg after => 11 ≤ (alg ++ after).length)
    fun alg key after s t _ _ hkey hat hend => ?_).trans ?_
  · refine (compare_inside_iff (by decide) hat hend).trans (and_iff_left fun _ => ?_)
    refine (safe_sequence hlt hkey.le_length 9 fun buf hin hsize => ?_).ne_fault
    refine (safe_berDecodeINTEGER hin).bind fun version hversion => ?_
    exact safe_buildIntegers hin hsize rsaPrivateTypes hversion.fits
  · simp only [append_nil]
    rfl

/-- When the identifier of an RSA public key is compared inside. -/
theorem berDecodeRsaPublicKey_inside_iff {data : List UInt8} (hlt : data.length < 2 ^ 64) :
    berDecodeRsaPublicKey data data.length ≠ .error .fault ↔ SpkiAlgReaches 13 data := by
  refine spki_inside_iff hlt (P := fun alg after => 13 ≤ (alg ++ after).length)
    fun alg n bits after spki _ _ _ hkey hat hend => ?_
  have hbase : berDecodeSEQUENCE berAlgIdRsaEncryption 0 berAlgIdRsaEncryption.length
      = .ok ⟨2, 13, 15⟩ := by decide
  rw [hbase, ok_bind]
  refine (compare_inside_iff (by decide) hat hend).trans ?_
  refine and_iff_left fun _ => Safe.ne_fault (Q := fun _ => True) ?_
  refine (safe_berDecodeSEQUENCE hlt hkey.le_length).bind fun seq hseq => ?_
  have hin := hseq.1
  have hsize := hseq.2
  refine (safe_berDecodeINTEGER hin).bind fun modulus hmodulus => ?_
  have hmodulusEnd := hmodulus.data_end
  have hmodulusFits := hmodulus.fits
  refine (safe_nextInteger hin hsize hmodulusFits).bind fun exp hexp => ?_
  have hexpEnd := hexp.data_end
  have hexpFits := hexp.fits
  refine (safe_buildAttribute _ (by omega)).bind fun modulusAttr _ => ?_
  exact (safe_buildAttribute _ (by omega)).bind fun publExpAttr _ => trivial

/-! ### Integers that need not be there

The length of the DSA parameters is a difference that wraps around if the algorithm identifier is
shorter than the object identifier. The functions then go over integers without an end of the data.
-/

/-- Going over `k` integers in `len` bytes that begin with `xs`, and over their contents if all are
found, needs no byte behind `xs`. A content that is cut off is found too late, unless so few bytes
are left that the next integer is refused. -/
def IntegersInside : Nat → Nat → List UInt8 → Prop
  | 0, _, _ => True
  | k + 1, len, xs =>
    Refused (· == 0x02) xs len ∨
      ∃ h n ys, xs = 0x02 :: (h ++ ys) ∧ LengthOctets h n ∧ 1 + h.length + n ≤ len ∧
        (n ≤ ys.length ∧ IntegersInside k (len - (1 + h.length + n)) (ys.drop n) ∨
          ys ≠ [] ∧ 0 < k ∧ len - (1 + h.length + n) < 2)

section
variable {mem o ys : List UInt8} {ptr n len : Nat}

section
variable {tagOk : UInt8 → Bool} {tag : UInt8} (htag : tagOk tag = true)
  (P : List UInt8 → Nat → List UInt8 → Prop)
include htag

/-- A field that is there, at least its header, is not refused. -/
theorem refused_or_octets_iff (hmem : mem.drop ptr = tag :: (o ++ ys)) (ho : LengthOctets o n)
    (hfits : 1 + o.length + n ≤ len) :
    (Refused tagOk (mem.drop ptr) len ∨ ∃ h n ys, mem.drop ptr = tag :: (h ++ ys) ∧
      LengthOctets h n ∧ 1 + h.length + n ≤ len ∧ P h n ys) ↔ P o n ys := by
  constructor
  · rintro (hrefused | ⟨o', n', ys', hmem', ho', -, h⟩)
    · -- The decoder would fail.
      have heq := berDecodeField_refused hrefused
      rw [berDecodeField_octets htag hmem ho, if_pos hfits] at heq
      cases heq
    · rw [hmem, List.cons.injEq] at hmem'
      obtain ⟨rfl, rfl, rfl⟩ := ho.unique ho' hmem'.2
      exact h
  · intro h
    exact .inr ⟨o, n, ys, hmem, ho, hfits, h⟩

/-- A fault is no refusal, and no field that fits. -/
theorem not_refused_or_octets (heq : berDecodeField tagOk mem ptr len = .error .fault) :
    ¬ (Refused tagOk (mem.drop ptr) len ∨ ∃ h n ys, mem.drop ptr = tag :: (h ++ ys) ∧
      LengthOctets h n ∧ 1 + h.length + n ≤ len ∧ P h n ys) := by
  rintro (hrefused | ⟨o, n, ys, hmem, ho, hfits, -⟩)
  · rw [berDecodeField_refused hrefused] at heq
    cases heq
  · rw [berDecodeField_octets htag hmem ho, if_pos hfits] at heq
    cases heq

end

/-- Less than a tag and a length is refused at once. -/
theorem integersInside_of_lt {k : Nat} {xs : List UInt8} (h : len < 2) :
    IntegersInside k len xs := by
  cases k with
  | zero => trivial
  | succ k => exact .inl (.inl h)

/-- No byte is there to be read. -/
theorem berDecodeINTEGER_nil (hmem : mem.drop ptr = []) :
    berDecodeINTEGER mem ptr len = .error (if len < 2 then .rc .functionFailed else .fault) := by
  have hget : mem[ptr]? = none := by
    rw [← add_zero ptr, ← getElem?_drop, hmem, getElem?_nil]
  rw [berDecodeINTEGER, berDecodeField, hget]
  by_cases hlen : len < 2
  · rw [if_pos hlen, check_bind_not (not_not.mpr hlen), error_bind]
  · rw [if_neg hlen, check_bind hlen]
    rfl

/-- The decoder reads the first byte of an integer. -/
theorem berDecodeINTEGER_octets (hmem : mem.drop ptr = 0x02 :: (o ++ ys)) (ho : LengthOctets o n)
    (hfits : 1 + o.length + n ≤ len) (hthere : n = 0 ∨ ys ≠ []) :
    ∃ field, berDecodeINTEGER mem ptr len = .ok field ∧ field.fieldLen = 1 + o.length + n ∧
      field.data + field.dataLen = ptr + (1 + o.length + n) ∧ n ≤ field.dataLen + 1 := by
  rw [berDecodeINTEGER, berDecodeField_octets rfl hmem ho, if_pos hfits, ok_bind]
  by_cases hzero : n > 0
  · have hys : ys ≠ [] := hthere.resolve_left (hzero.ne')
    obtain ⟨first, zs, rfl⟩ := exists_cons_of_ne_nil hys
    have hget : mem[ptr + (1 + o.length)]? = some first := by
      rw [← getElem?_drop, hmem, add_comm 1, getElem?_cons_succ,
        getElem?_append_right le_rfl, Nat.sub_self, getElem?_cons_zero]
    rw [if_pos hzero, hget, access_bind]
    split
    · refine ⟨_, rfl, rfl, ?_, ?_⟩
      · show ptr + (1 + o.length) + 1 + (n - 1) = _
        omega
      · show n ≤ n - 1 + 1
        omega
    · exact ⟨_, rfl, rfl, add_assoc _ _ _, Nat.le_succ _⟩
  · rw [if_neg hzero]
    exact ⟨_, rfl, rfl, add_assoc _ _ _, Nat.le_succ _⟩

/-- The content begins where the data ends. -/
theorem berDecodeINTEGER_octets_fault (hmem : mem.drop ptr = 0x02 :: (o ++ []))
    (ho : LengthOctets o n) (hfits : 1 + o.length + n ≤ len) (hn : n ≠ 0) :
    berDecodeINTEGER mem ptr len = .error .fault := by
  have hget : mem[ptr + (1 + o.length)]? = none := by
    rw [← getElem?_drop, hmem, append_nil, getElem?_eq_none_iff, length_cons]
    omega
  rw [berDecodeINTEGER, berDecodeField_octets rfl hmem ho, if_pos hfits, ok_bind,
    if_pos (Nat.pos_of_ne_zero hn), hget]
  rfl

end

/-- A field is not longer than it may be. -/
theorem berDecodeINTEGER_fits {mem : List UInt8} {ptr len : Nat} {field : BerField}
    (h : berDecodeINTEGER mem ptr len = .ok field) : field.fieldLen ≤ len := by
  obtain ⟨tag, o, n, ys, -, -, -, hfits, heq⟩ | ⟨-, heq⟩ | ⟨-, heq⟩ :=
    berDecodeField_cases (· == 0x02) mem ptr len <;> rw [berDecodeINTEGER, heq] at h
  · rw [ok_bind] at h
    split at h
    · cases hfirst : mem[ptr + (1 + o.length)]? with
      | none =>
        rw [hfirst] at h
        cases h
      | some first =>
        rw [hfirst, access_bind] at h
        split at h <;> cases h <;> exact hfits
    · cases h
      exact hfits
  · cases h
  · cases h

section
variable {mem : List UInt8} {buf bufLen : Nat} (hlt : bufLen < 2 ^ 64)
include hlt

/-- The integers are inside the buffer, if not inside the memory. -/
theorem skipIntegers_le {k offset o : Nat} (hoffset : offset ≤ bufLen)
    (h : skipIntegers mem buf bufLen k offset = .ok o) : o ≤ bufLen := by
  induction k generalizing offset with
  | zero =>
    cases h
    exact hoffset
  | succ k ih =>
    rw [skipIntegers, ulongSub_of_le hoffset hlt] at h
    match hfield : berDecodeINTEGER mem (buf + offset) (bufLen - offset) with
    | .error e =>
      rw [hfield] at h
      cases h
    | .ok field =>
      have hfits := berDecodeINTEGER_fits hfield
      rw [hfield, ok_bind] at h
      exact ih (by omega) h

/-- Both passes over the integers stay inside the memory. -/
theorem integers_inside_iff (mem : List UInt8) (buf : Nat) (types : List Nat) (offset : Nat)
    (hoffset : offset ≤ bufLen) :
    (skipIntegers mem buf bufLen types.length offset ≠ .error .fault ∧
        ∀ offset', skipIntegers mem buf bufLen types.length offset = .ok offset' →
          buildIntegers mem buf bufLen types offset ≠ .error .fault) ↔
      IntegersInside types.length (bufLen - offset) (mem.drop (buf + offset)) := by
  induction types generalizing offset with
  | nil =>
    refine iff_of_true ⟨?_, ?_⟩ trivial
    · intro h
      cases h
    · intro o _ h
      cases h
  | cons type types ih =>
    rw [length_cons, skipIntegers, buildIntegers, ulongSub_of_le hoffset hlt]
    obtain ⟨tag, o, n, ys, htag, ho, hmem, hfits, heq⟩ | ⟨hrefused, heq⟩ | ⟨-, heq⟩ :=
      berDecodeField_cases (· == 0x02) mem (buf + offset) (bufLen - offset)
    · rw [beq_iff_eq] at htag
      subst htag
      rw [IntegersInside, refused_or_octets_iff rfl _ hmem ho hfits]
      have hsize := congrArg length hmem
      rw [length_drop, length_cons, length_append] at hsize
      by_cases hn : n ≤ ys.length
      · have hthere : n = 0 ∨ ys ≠ [] := by
          by_contra hnot
          rw [not_or, not_not] at hnot
          rw [hnot.2] at hn
          exact hnot.1 (Nat.le_zero.mp hn)
        obtain ⟨field, hfield, hlen, hend, -⟩ := berDecodeINTEGER_octets hmem ho hfits hthere
        have hread : field.data + field.dataLen ≤ mem.length := by omega
        have hdrop : mem.drop (buf + (offset + field.fieldLen)) = ys.drop n := by
          rw [← add_assoc, ← drop_drop, hmem, hlen, show 1 + o.length + n
            = (0x02 :: o).length + n by rw [length_cons]; omega, ← cons_append,
            drop_length_add_append]
        have hnext := ih (offset + field.fieldLen) (by omega)
        have hbuild := bind_ne_error_iff_left (x := buildIntegers mem buf bufLen types (offset +
          field.fieldLen)) (e := Halt.fault) (f := fun attrs => .ok (⟨type, (mem.drop
          field.data).take field.dataLen⟩ :: attrs)) (by intro attrs h; cases h)
        rw [hdrop, ← Nat.sub_sub, hlen] at hnext
        rw [hfield, ok_bind, ok_bind, buildAttribute, readAt_eq_some hread, access_bind, ok_bind,
          hbuild, hlen, hnext, and_iff_right hn, or_iff_left_of_imp]
        intro hfew
        exact integersInside_of_lt hfew.2.2
      · rw [eq_false hn, false_and, false_or]
        by_cases hys : ys = []
        · subst hys
          rw [berDecodeINTEGER_octets_fault hmem ho hfits (by rw [length_nil] at hn; omega),
            error_bind]
          exact iff_of_false (fun h => h.1 rfl) fun h => h.1 rfl
        · obtain ⟨field, hfield, hlen, hend, hdata⟩ :=
            berDecodeINTEGER_octets hmem ho hfits (.inr hys)
          have hpos := length_pos_of_ne_nil hys
          -- The content is cut off, so the second pass does not get over it.
          have hread : readAt mem field.data field.dataLen = none := if_neg (by omega)
          have hdrop : mem.drop (buf + (offset + field.fieldLen)) = [] :=
            drop_eq_nil_of_le (by omega)
          rw [hfield, ok_bind, ok_bind, buildAttribute, hread, and_iff_right hys]
          match types with
          | [] => exact iff_of_false (fun h => h.2 _ rfl rfl) fun h => lt_irrefl 0 h.1
          | type' :: types =>
            rw [length_cons, skipIntegers, berDecodeINTEGER_nil hdrop, error_bind,
              ulongSub_of_le (by omega) hlt, hlen, ← Nat.sub_sub, and_iff_right (Nat.succ_pos _)]
            split
            · next hfew =>
              refine iff_of_true ⟨?_, ?_⟩ hfew
              · intro h
                cases h
              · intro o h
                cases h
            · next hmany => exact iff_of_false (fun h => h.1 rfl) hmany
    · have hint : berDecodeINTEGER mem (buf + offset) (bufLen - offset)
          = .error (.rc .functionFailed) := by rw [berDecodeINTEGER, heq, error_bind]
      rw [hint, error_bind]
      refine iff_of_true ⟨?_, ?_⟩ (.inl hrefused)
      · intro h
        cases h
      · intro o h
        cases h
    · have hint : berDecodeINTEGER mem (buf + offset) (bufLen - offset) = .error .fault := by
        rw [berDecodeINTEGER, heq, error_bind]
      rw [hint, error_bind]
      exact iff_of_false (fun h => h.1 rfl) (not_refused_or_octets rfl _ heq)

end

/-- Going over a `SEQUENCE` of `k` integers in `len` bytes that begin with `xs`. -/
def SequenceInside (k len : Nat) (xs : List UInt8) : Prop :=
  Refused (· == 0x30) xs len ∨
    ∃ h n ys, xs = 0x30 :: (h ++ ys) ∧ LengthOctets h n ∧ 1 + h.length + n ≤ len ∧
      IntegersInside k n ys

/-- A sequence of integers, at a place that may be behind the data. -/
theorem sequence_inside_iff {α : Type} (mem : List UInt8) (ptr len : Nat) (types : List Nat)
    {f : List KeyAttribute → Except Stop α} (hf : ∀ attrs, f attrs ≠ .error .fault) :
    (do
      let buf ← berDecodeSEQUENCE mem ptr len
      let offset ← skipIntegers mem buf.data buf.dataLen types.length 0
      check (¬ offset > buf.dataLen) .functionFailed
      let attrs ← buildIntegers mem buf.data buf.dataLen types 0
      f attrs) ≠ .error .fault ↔ SequenceInside types.length len (mem.drop ptr) := by
  unfold berDecodeSEQUENCE
  obtain ⟨tag, o, n, ys, htag, ho, hmem, hfits, heq⟩ | ⟨hrefused, heq⟩ | ⟨-, heq⟩ :=
    berDecodeField_cases (· == 0x30) mem ptr len
  · rw [beq_iff_eq] at htag
    subst htag
    have hlt : n < 2 ^ 64 := ho.lt.trans (by decide)
    have hdrop : mem.drop (ptr + (1 + o.length)) = ys := by
      rw [← drop_drop, hmem, add_comm 1, drop_succ_cons, drop_left]
    have hpasses := integers_inside_iff hlt mem (ptr + (1 + o.length)) types 0 (Nat.zero_le n)
    rw [add_zero, hdrop, Nat.sub_zero] at hpasses
    rw [heq, ok_bind]
    rw [SequenceInside, refused_or_octets_iff rfl _ hmem ho hfits, ← hpasses, bind_ne_error_iff]
    refine and_congr_right fun _ => forall_congr' fun offset => imp_congr_right fun hskip => ?_
    have hle := skipIntegers_le hlt (Nat.zero_le n) hskip
    rw [check_bind (Nat.not_lt_of_le hle), bind_ne_error_iff_left hf]
  · rw [heq, error_bind]
    refine iff_of_true ?_ (.inl hrefused)
    intro h
    cases h
  · rw [heq, error_bind]
    exact iff_of_false (fun h => h rfl) (not_refused_or_octets rfl _ heq)

/-! ### DSA keys -/

/-- What `ber_decode_DSAPrivateKey` needs: the comparison ends inside the data, and if the
identifier that it has found is longer than the content, so does the search for the parameters. -/
def DsaAlgReaches (data : List UInt8) : Prop :=
  ∀ alg key after, IsPrivateKeyInfo data alg key after → 9 ≤ (alg ++ after).length ∧
      (alg.length < 9 → ∀ xs, alg ++ after = berIdDsa ++ xs →
        SequenceInside 3 (2 ^ 64 + alg.length - 9) xs)

/-- The private value is looked for inside the private key. -/
theorem safe_dsaValue {mem : List UInt8} (h : key.ptr + key.len ≤ mem.length)
    (attrs : List KeyAttribute) :
    Safe (do
      let value ← berDecodeINTEGER mem key.ptr key.len
      let valueAttr ← buildAttribute mem CKA_VALUE value.data value.dataLen
      .ok (attrs ++ [valueAttr])) fun _ => True := by
  refine (safe_berDecodeINTEGER h).bind fun value hvalue => ?_
  have hend := hvalue.data_end
  have hfits := hvalue.fits
  exact (safe_buildAttribute _ (by omega)).bind fun valueAttr _ => trivial

/-- When a DSA private key is decoded inside. -/
theorem berDecodeDsaPrivateKey_inside_iff {data : List UInt8} (hlt : data.length < 2 ^ 64) :
    berDecodeDsaPrivateKey data data.length ≠ .error .fault ↔ DsaAlgReaches data := by
  have hmem := (append_nil data).symm
  refine (privateKeyInfo_inside_iff hlt hmem (P := fun alg after => 9 ≤ (alg ++ after).length ∧
    (alg.length < 9 → ∀ xs, alg ++ after = berIdDsa ++ xs →
      SequenceInside 3 (2 ^ 64 + alg.length - 9) xs))
    fun alg key after s t _ halg hkey hat hend => ?_).trans ?_
  · have hvalue := safe_dsaValue hkey.le_length
    refine (compare_inside_iff (by decide) hat hend).trans (and_congr_right fun hlen => ?_)
    rw [halg.2]
    by_cases hlong : alg.length < 9
    · -- The length of the parameters wraps around.
      have hwrap : ulongSub alg.length berIdDsa.length = 2 ^ 64 + alg.length - 9 := by
        rw [ulongSub, show berIdDsa.length = 9 from rfl]
        omega
      rw [hwrap]
      refine (imp_congr_right fun _ => sequence_inside_iff data _ _ dsaParamTypes fun attrs =>
        (hvalue attrs).ne_fault).trans ?_
      rw [← drop_drop, drop_of_at_end hat hend]
      constructor
      · intro h _ xs heq
        have hinside := h ⟨xs, heq.symm⟩
        rwa [heq, drop_left] at hinside
      · rintro h ⟨xs, heq⟩
        rw [← heq, drop_left]
        exact h hlong xs heq.symm
    · refine iff_of_true (fun _ => ?_) fun h => absurd h hlong
      have hfits := halg.1.le_length
      have hparams : ulongSub alg.length berIdDsa.length = alg.length - 9 :=
        ulongSub_of_le (not_lt.mp hlong) (by omega)
      refine (safe_sequence hlt ?_ 3 fun buf hin hsize => ?_).ne_fault
      · rw [hparams]
        show s.ptr + 9 + (alg.length - 9) ≤ data.length
        omega
      · generalize dsaParamTypes = types
        exact (safe_buildIntegers hin hsize types zero_le).bind fun attrs _ => hvalue attrs
  · simp only [append_nil]
    rfl

/-- When the identifier of a DSA public key is compared inside. -/
theorem berDecodeDsaPublicKey_inside_iff {data : List UInt8} (hlt : data.length < 2 ^ 64) :
    berDecodeDsaPublicKey data data.length ≠ .error .fault ↔ SpkiAlgReaches 9 data := by
  refine spki_inside_iff hlt (P := fun alg after => 9 ≤ (alg ++ after).length)
    fun alg n bits after spki _ _ hparam hkey hat hend => ?_
  refine (compare_inside_iff (by decide) hat hend).trans ?_
  refine and_iff_left fun _ => Safe.ne_fault (Q := fun _ => True) ?_
  refine (safe_berDecodeSEQUENCE hlt hparam.le_length).bind fun seq hseq => ?_
  have hin := hseq.1
  have hsize := hseq.2
  refine (safe_berDecodeINTEGER hin).bind fun prime hprime => ?_
  have hprimeEnd := hprime.data_end
  have hprimeFits := hprime.fits
  refine (safe_nextInteger hin hsize hprimeFits).bind fun subprime hsubprime => ?_
  have hsubprimeEnd := hsubprime.data_end
  have hsubprimeFits := hsubprime.fits
  refine (safe_nextInteger hin hsize (by omega)).bind fun base hbase => ?_
  have hbaseEnd := hbase.data_end
  have hbaseFits := hbase.fits
  refine (safe_berDecodeINTEGER hkey.le_length).bind fun value hvalue => ?_
  have hvalueEnd := hvalue.data_end
  have hvalueFits := hvalue.fits
  have hkeyIn := hkey.le_length
  refine (safe_buildAttribute _ (by omega)).bind fun primeAttr _ => ?_
  refine (safe_buildAttribute _ (by omega)).bind fun subprimeAttr _ => ?_
  refine (safe_buildAttribute _ (by omega)).bind fun baseAttr _ => ?_
  exact (safe_buildAttribute _ (by omega)).bind fun valueAttr _ => trivial

/-! ### EC keys -/

/-- The public key of an EC key is inside. -/
theorem safe_decodeEcPublicKey {mem : List UInt8} {buf bufLen offset dataLen : Nat}
    (h : buf + bufLen ≤ mem.length) (hlt : bufLen < 2 ^ 64) (hoffset : offset ≤ bufLen) :
    Safe (decodeEcPublicKey mem buf bufLen offset dataLen)
      fun r => ∀ s, r = some (some s) → s.ptr + s.len ≤ mem.length := by
  unfold decodeEcPublicKey
  split
  · rw [ulongSub_of_le hoffset hlt]
    refine (safe_berDecodeCHOICE true (by omega)).bind fun r hchoice => ?_
    have hend := hchoice.data_end
    have hheader := hchoice.header
    have hfits := hchoice.fits
    dsimp only at hend hheader hfits ⊢
    split
    · intro s h
      cases h
    · rw [ulongSub_of_le (by omega) hlt]
      refine (safe_berDecodeBITSTRING (by omega)).bind fun bits hbits => ?_
      have hbitsEnd := hbits.1.data_end
      have hbitsFits := hbits.1.fits
      intro s h
      cases h
      show bits.data + 1 + (bits.dataLen - 1) ≤ mem.length
      omega
    · intro s h
      cases h
  · intro s h
    cases h

/-- Encoding touches no other memory. -/
theorem safe_berEncodeField (tag : UInt8) (content : List UInt8) :
    Safe (berEncodeField tag content) fun _ => True := by
  rw [berEncodeField_eq]
  split
  · trivial
  · exact Safe.rc _

variable (keyType : EcKeyType)

/-- A point inside the data can be copied. -/
theorem safe_buildEcPoint {mem : List UInt8} {pub : Slice} (h : pub.ptr + pub.len ≤ mem.length) :
    Safe (buildEcPoint keyType mem pub) fun _ => True := by
  refine (Safe.read h).bind fun bytes _ => ?_
  cases keyType with
  | ec => exact safe_berEncodeField _ _
  | edwards | montgomery => trivial
  | other => exact Safe.rc _

/-- The parts of an EC key are inside. -/
theorem safe_decodeEcKey {mem : List UInt8} {parm : Slice} (hlt : mem.length < 2 ^ 64)
    (hparm : parm.ptr + parm.len ≤ mem.length) (hkey : key.ptr + key.len ≤ mem.length)
    (dataLen : Nat) :
    Safe (decodeEcKey keyType mem parm key dataLen) fun _ => True := by
  refine (safe_berDecodeSEQUENCE hlt hkey).bind fun buf hseq => ?_
  have hin := hseq.1
  have hsize := hseq.2
  refine (safe_berDecodeINTEGER hin).bind fun version hversion => ?_
  have hversionFits := hversion.fits
  dsimp only
  rw [ulongSub_of_le hversionFits hsize]
  refine (safe_berDecodeField _ (by omega)).bind fun priv hpriv => ?_
  have hprivEnd := hpriv.data_end
  have hprivFits := hpriv.fits
  refine (safe_decodeEcPublicKey hin hsize (by omega)).bind fun optional hoptional => ?_
  match optional, hoptional with
  | none, _ => trivial
  | some none, _ =>
    refine (Safe.read hparm).bind fun params _ => ?_
    exact (Safe.read (by omega)).bind fun value _ => trivial
  | some (some slice), hslice =>
    refine (Safe.read hparm).bind fun params _ => ?_
    refine (safe_buildEcPoint keyType (hslice slice rfl)).bind fun point _ => ?_
    exact (Safe.read (by omega)).bind fun value _ => trivial

/-- The outer sequence alone holds the same structure. -/
theorem isPrivateKeyInfo_append {data rest body key : List UInt8} (hdata : Tlv 0x30 body [] data) :
    IsPrivateKeyInfo (data ++ rest) alg key after ↔
      ∃ after', after = after' ++ rest ∧ IsPrivateKeyInfo data alg key after' := by
  have hboth : Tlv 0x30 body rest (data ++ rest) := hdata.append rest
  constructor
  · rintro ⟨body', ver, b₁, b₂, b₃, rest', hdata', hver, halg, hkey, rfl⟩
    obtain ⟨-, rfl, rfl⟩ := hboth.unique hdata'
    exact ⟨b₂, rfl, body, ver, b₁, b₂, b₃, [], hdata, hver, halg, hkey, (append_nil _).symm⟩
  · rintro ⟨after', rfl, body', ver, b₁, b₂, b₃, rest', hdata', hver, halg, hkey, rfl⟩
    obtain ⟨-, rfl, rfl⟩ := hdata.unique hdata'
    exact ⟨body, ver, b₁, b₂, b₃, rest, hboth, hver, halg, hkey, by rw [append_nil]⟩

/-- No octet string begins inside the object identifier. -/
theorem berIdEc_le_alg {data key : List UInt8} (h : IsPrivateKeyInfo data alg key after)
    (hsame : berIdEc <+: alg ++ (after ++ xs)) :
    9 ≤ alg.length := by
  obtain ⟨body, ver, b₁, b₂, b₃, rest, -, -, -, ⟨o, -, rfl⟩, rfl⟩ := h
  by_contra hshort
  obtain ⟨ys, hys⟩ := hsame
  have hget : (berIdEc ++ ys)[alg.length]? = _ := congrArg (fun zs => zs[alg.length]?) hys
  rw [getElem?_append_left (show alg.length < 9 by omega),
    getElem?_append_right le_rfl, Nat.sub_self] at hget
  have hnone : ∀ i < 9, berIdEc[i]? ≠ some 0x04 := by decide
  exact hnone alg.length (by omega) hget

/-- Only for `CKK_EC` an identifier is compared. -/
theorem derDecodeEcPrivateKey_inside_iff {data : List UInt8} (hlt : data.length < 2 ^ 64) :
    derDecodeEcPrivateKey keyType data data.length ≠ .error .fault ↔
      (keyType = .ec → AlgReaches 9 data) := by
  unfold derDecodeEcPrivateKey
  obtain ⟨_, body, rest, outer, htag, hdata, houter, houterAt, houterLen⟩ | ⟨hnone, houter⟩ :=
    berDecodeField_at (· == 0x30) (at_self data)
  case inr =>
    rw [berDecodeSEQUENCE, houter, error_bind]
    refine iff_of_true nofun fun _ alg key after hinfo => ?_
    obtain ⟨body, _, _, _, _, rest, hdata, -⟩ := hinfo
    exact absurd hdata (hnone 0x30 body rest rfl)
  rw [beq_iff_eq] at htag
  subst htag
  have hle : ¬ outer.fieldLen > data.length := by omega
  rw [berDecodeSEQUENCE, houter, ok_bind, check_bind hle]
  -- What follows works on the outer sequence.
  obtain ⟨window, hwindow, hwindowLen, hmem⟩ : ∃ window, Tlv 0x30 body [] window ∧
      outer.fieldLen = window.length ∧ data = window ++ rest := by
    obtain ⟨o, ho, hdata⟩ := hdata
    have hsplit : data = 0x30 :: (o ++ body) ++ rest := by
      rw [hdata, cons_append, append_assoc]
    refine ⟨0x30 :: (o ++ body), ⟨o, ho, by rw [append_nil]⟩, ?_, hsplit⟩
    have hlen := congrArg length hsplit
    rw [length_append] at hlen
    omega
  have hreach : AlgReaches 9 data ↔ ∀ alg key after, IsPrivateKeyInfo window alg key after →
      9 ≤ (alg ++ (after ++ rest)).length := by
    constructor
    · intro h alg key after hinfo
      refine h alg key (after ++ rest) ?_
      rw [hmem]
      exact (isPrivateKeyInfo_append hwindow).mpr ⟨after, rfl, hinfo⟩
    · intro h alg key after hinfo
      rw [hmem] at hinfo
      obtain ⟨after', rfl, hinfo'⟩ := (isPrivateKeyInfo_append hwindow).mp hinfo
      exact h alg key after' hinfo'
  rw [hwindowLen, hreach]
  refine (privateKeyInfo_inside_iff (by omega) hmem
    (P := fun alg after => keyType = .ec → 9 ≤ (alg ++ after).length)
    fun alg key after s t hinfo halg hkey hat hend => ?_).trans ?_
  · cases keyType with
    | ec =>
      dsimp only [checkEcAlg]
      rw [bind_assoc]
      refine (compare_inside_iff (by decide) hat hend).trans ?_
      rw [imp_iff_right rfl]
      refine and_iff_left fun hsame => ?_
      have hlong := berIdEc_le_alg hinfo hsame
      have hsize := halg.1.le_length
      have hparm : (ecParamsOf .ec s).ptr + (ecParamsOf .ec s).len ≤ data.length := by
        show s.ptr + 9 + ulongSub s.len 9 ≤ data.length
        rw [halg.2, ulongSub_of_le hlong (by omega)]
        omega
      exact (safe_decodeEcKey .ec hlt hparm hkey.le_length window.length).ne_fault
    | edwards =>
      refine iff_of_true ?_ nofun
      exact (safe_decodeEcKey .edwards hlt halg.le_length hkey.le_length window.length).ne_fault
    | montgomery =>
      refine iff_of_true ?_ nofun
      exact (safe_decodeEcKey .montgomery hlt halg.le_length hkey.le_length
        window.length).ne_fault
    | other =>
      refine iff_of_true ?_ nofun
      intro h
      cases h
  · exact ⟨fun h hec alg key after hinfo => h alg key after hinfo hec,
      fun h alg key after hinfo hec => h hec alg key after hinfo⟩

/-- The parameters and the point can be copied. -/
theorem safe_ecPublicKey {mem : List UInt8} {param : Slice}
    (hparam : param.ptr + param.len ≤ mem.length) (hkey : key.ptr + key.len ≤ mem.length) :
    Safe (do
      let params ← access (readAt mem param.ptr param.len)
      let point ← buildEcPoint keyType mem key
      .ok (params, point)) fun _ => True := by
  refine (Safe.read hparam).bind fun params _ => ?_
  exact (safe_buildEcPoint keyType hkey).bind fun point _ => trivial

/-- Only for `CKK_EC` an identifier is compared. -/
theorem derDecodeEcPublicKey_inside_iff {data : List UInt8} (hlt : data.length < 2 ^ 64) :
    derDecodeEcPublicKey keyType data data.length ≠ .error .fault ↔
      (keyType = .ec → SpkiAlgReaches 9 data) := by
  refine (spki_inside_iff hlt (P := fun alg after => keyType = .ec → 9 ≤ (alg ++ after).length)
    fun alg n bits after spki _ hoid hparam hkey hat hend => ?_).trans ?_
  · cases keyType with
    | ec =>
      have hbase : berDecodeSEQUENCE derAlgIdEcBase 0 derAlgIdEcBase.length = .ok ⟨2, 9, 11⟩ := by
        decide
      have hrest := safe_ecPublicKey .ec hparam.le_length hkey.le_length
      dsimp only
      rw [hbase, ok_bind]
      refine (compare_inside_iff (by decide) hat hend).trans ?_
      rw [imp_iff_right rfl]
      exact and_iff_left fun _ => hrest.ne_fault
    | edwards =>
      refine iff_of_true ?_ nofun
      exact (safe_ecPublicKey .edwards hoid.le_length hkey.le_length).ne_fault
    | montgomery =>
      refine iff_of_true ?_ nofun
      exact (safe_ecPublicKey .montgomery hoid.le_length hkey.le_length).ne_fault
    | other =>
      refine iff_of_true ?_ nofun
      intro h
      cases h
  · exact ⟨fun h hec alg n bits after hinfo => h alg n bits after hinfo hec,
      fun h alg n bits after hinfo hec => h hec alg n bits after hinfo⟩

/-! ### Attributes that are copied -/

section
variable {data : List UInt8} {ptr len : Nat}

/-- What is read is a part of the data. -/
theorem yields_read : Yields (access (readAt data ptr len) : Except Stop (List UInt8))
    fun xs => xs <:+: data := by
  intro xs h
  rw [access_eq_ok, readAt] at h
  split at h
  · cases h
    exact (List.take_prefix _ _).isInfix.trans (drop_suffix _ _).isInfix
  · cases h

/-- The value of an attribute is a part of the data. -/
theorem yields_buildAttribute (type : Nat) :
    Yields (buildAttribute data type ptr len) fun attr => attr.value <:+: data :=
  yields_read.bind fun _ hvalue => .ok hvalue

/-- The integers are parts of the data. -/
theorem yields_buildIntegers (types : List Nat) (buf bufLen offset : Nat) :
    Yields (buildIntegers data buf bufLen types offset)
      fun attrs => ∀ attr ∈ attrs, attr.value <:+: data := by
  induction types generalizing offset with
  | nil => exact .ok nofun
  | cons type types ih =>
    refine .last fun field => (yields_buildAttribute type).bind fun attr hattr => ?_
    exact (ih _).bind fun attrs hattrs => .ok (forall_mem_cons.mpr ⟨hattr, hattrs⟩)

/-- The attributes of an RSA private key are parts of the data. -/
theorem yields_berDecodeRsaPrivateKey :
    Yields (berDecodeRsaPrivateKey data len) fun attrs => ∀ attr ∈ attrs, attr.value <:+: data :=
  .last fun _ => .last fun _ => .last fun _ => .last fun _ => .last fun _ => .last fun _ =>
    .last fun _ => yields_buildIntegers _ _ _ _

/-- The attributes of an RSA public key are parts of the data. -/
theorem yields_berDecodeRsaPublicKey :
    Yields (berDecodeRsaPublicKey data len)
      fun attrs => attrs.1.value <:+: data ∧ attrs.2.value <:+: data := by
  refine .last fun _ => .last fun _ => .last fun _ => .last fun _ => .last fun _ => .last fun _ =>
    .last fun _ => .last fun _ => ?_
  refine (yields_buildAttribute _).bind fun modulus hmodulus => ?_
  exact (yields_buildAttribute _).bind fun exp hexp => .ok ⟨hmodulus, hexp⟩

/-- The attributes of a DSA private key are parts of the data. -/
theorem yields_berDecodeDsaPrivateKey :
    Yields (berDecodeDsaPrivateKey data len) fun attrs => ∀ attr ∈ attrs, attr.value <:+: data := by
  refine .last fun _ => .last fun _ => .last fun _ => .last fun _ => .last fun _ => .last fun _ =>
    ?_
  refine (yields_buildIntegers _ _ _ _).bind fun attrs hattrs => .last fun _ => ?_
  refine (yields_buildAttribute _).bind fun value hvalue => .ok ?_
  exact forall_mem_append.mpr ⟨hattrs, forall_mem_singleton.mpr hvalue⟩

/-- The attributes of a DSA public key are parts of the data. -/
theorem yields_berDecodeDsaPublicKey :
    Yields (berDecodeDsaPublicKey data len) fun attrs => ∀ attr ∈ attrs, attr.value <:+: data := by
  refine .last fun _ => .last fun _ => .last fun _ => .last fun _ => .last fun _ => .last fun _ =>
    .last fun _ => .last fun _ => ?_
  refine (yields_buildAttribute _).bind fun prime hprime => ?_
  refine (yields_buildAttribute _).bind fun subprime hsubprime => ?_
  refine (yields_buildAttribute _).bind fun base hbase => ?_
  refine (yields_buildAttribute _).bind fun value hvalue => .ok ?_
  simp only [forall_mem_cons]
  exact ⟨hprime, hsubprime, hbase, hvalue, forall_mem_nil _⟩

/-- An EC point is a copy, or an octet string around one. -/
def PointFrom (data point : List UInt8) : Prop :=
  ∃ bytes, bytes <:+: data ∧ (point = bytes ∨ point = tlv 0x04 bytes)

/-- The point is a part of the data, or wraps one. -/
theorem yields_buildEcPoint (keyType : EcKeyType) (pub : Slice) :
    Yields (buildEcPoint keyType data pub) (PointFrom data) := by
  refine yields_read.bind fun bytes hbytes => ?_
  cases keyType with
  | ec =>
    intro point h
    dsimp only at h
    rw [berEncodeOCTETSTRING, berEncodeField_eq] at h
    split at h
    · cases h
      exact ⟨bytes, hbytes, .inr rfl⟩
    · cases h
  | edwards | montgomery => exact .ok ⟨bytes, hbytes, .inl rfl⟩
  | other =>
    intro point h
    cases h

/-- The parts of an EC key are copies. -/
def EcKeyFrom (data : List UInt8) (k : EcPrivateKey) : Prop :=
  k.params <:+: data ∧ k.value <:+: data ∧ ∀ point ∈ k.point, PointFrom data point

/-- The attributes of an EC private key come from the data. -/
theorem yields_derDecodeEcPrivateKey (keyType : EcKeyType) :
    Yields (derDecodeEcPrivateKey keyType data len) fun r => ∀ k ∈ r, EcKeyFrom data k := by
  refine .last fun _ => .last fun _ => .last fun _ => .last fun _ => .last fun _ => .last fun _ =>
    .last fun _ => .last fun optional => ?_
  match optional with
  | none => exact .ok nofun
  | some none =>
    refine yields_read.bind fun params hparams => yields_read.bind fun value hvalue => .ok ?_
    intro k hk
    cases hk
    exact ⟨hparams, hvalue, nofun⟩
  | some (some slice) =>
    refine yields_read.bind fun params hparams => ?_
    refine (yields_buildEcPoint keyType slice).bind fun point hpoint => ?_
    refine yields_read.bind fun value hvalue => .ok ?_
    intro k hk
    cases hk
    refine ⟨hparams, hvalue, ?_⟩
    intro p hp
    cases hp
    exact hpoint

/-- The attributes of an EC public key come from the data. -/
theorem yields_derDecodeEcPublicKey (keyType : EcKeyType) :
    Yields (derDecodeEcPublicKey keyType data len)
      fun r => r.1 <:+: data ∧ PointFrom data r.2 := by
  have hrest : ∀ param key : Slice, Yields (do
      let params ← access (readAt data param.ptr param.len)
      let point ← buildEcPoint keyType data key
      .ok (params, point)) fun r => r.1 <:+: data ∧ PointFrom data r.2 := fun param key =>
    yields_read.bind fun params hparams =>
      (yields_buildEcPoint keyType key).bind fun point hpoint =>
      .ok ⟨hparams, hpoint⟩
  refine .last fun spki => ?_
  cases keyType with
  | ec => exact .last fun _ => .last fun _ => .last fun _ => .last fun _ => hrest _ _
  | edwards | montgomery => exact hrest _ _
  | other => exact nofun

end

/-! ### The decoders together -/

/-- A slice of the data. -/
def Slice.Inside (data : List UInt8) (s : Slice) : Prop := s.ptr + s.len ≤ data.length

/-- All the functions that decode a key stay inside the data, and what they return is from it. -/
structure DecodersInside (data : List UInt8) : Prop where
  privateKeyInfo : Safe (berDecodePrivateKeyInfo data data.length)
    fun r => Slice.Inside data r.1 ∧ Slice.Inside data r.2
  spki : Safe (berDecodeSpki data data.length) fun spki => Slice.Inside data spki.algOid ∧
    Slice.Inside data spki.param ∧ Slice.Inside data spki.key
  rsaPrivateKey : Safe (berDecodeRsaPrivateKey data data.length)
    fun attrs => ∀ attr ∈ attrs, attr.value <:+: data
  rsaPublicKey : Safe (berDecodeRsaPublicKey data data.length)
    fun attrs => attrs.1.value <:+: data ∧ attrs.2.value <:+: data
  dsaPrivateKey : Safe (berDecodeDsaPrivateKey data data.length)
    fun attrs => ∀ attr ∈ attrs, attr.value <:+: data
  dsaPublicKey : Safe (berDecodeDsaPublicKey data data.length)
    fun attrs => ∀ attr ∈ attrs, attr.value <:+: data
  ecPrivateKey : ∀ keyType, Safe (derDecodeEcPrivateKey keyType data data.length)
    fun r => ∀ k ∈ r, EcKeyFrom data k
  ecPublicKey : ∀ keyType, Safe (derDecodeEcPublicKey keyType data data.length)
    fun r => r.1 <:+: data ∧ PointFrom data r.2

/-- The decoders stay inside the data exactly if the comparisons with the object identifiers do, and
the search for the DSA parameters. -/
theorem decoders_inside_iff (data : List UInt8) (hlt : data.length < 2 ^ 64) :
    DecodersInside data ↔ AlgReaches 11 data ∧ SpkiAlgReaches 13 data ∧ DsaAlgReaches data := by
  constructor
  · intro h
    exact ⟨(berDecodeRsaPrivateKey_inside_iff hlt).mp h.rsaPrivateKey.ne_fault,
      (berDecodeRsaPublicKey_inside_iff hlt).mp h.rsaPublicKey.ne_fault,
      (berDecodeDsaPrivateKey_inside_iff hlt).mp h.dsaPrivateKey.ne_fault⟩
  · rintro ⟨halg, hspki, hdsa⟩
    -- The object identifiers of DSA and EC keys are shorter.
    have halg' : AlgReaches 9 data := fun alg key after hinfo =>
      le_trans (by decide) (halg alg key after hinfo)
    have hspki' : SpkiAlgReaches 9 data := fun alg n bits after hinfo =>
      le_trans (by decide) (hspki alg n bits after hinfo)
    constructor
    · obtain ⟨alg, key, after, hinfo⟩ | heq := berDecodePrivateKeyInfo_at (at_self data) hlt
      · obtain ⟨s, t, heq, halg, hkey, -, -⟩ := berDecodePrivateKeyInfo_of (at_self data) hlt hinfo
        rw [heq]
        exact ⟨halg.le_length, hkey.le_length⟩
      · rw [heq]
        exact Safe.rc _
    · obtain ⟨alg, n, bits, after, hinfo⟩ | heq := berDecodeSpki_at (at_self data) hlt
      · obtain ⟨spki, heq, hoid, hparam, hkey, -, -⟩ := berDecodeSpki_of (at_self data) hlt hinfo
        rw [heq]
        exact ⟨hoid.le_length, hparam.le_length, hkey.le_length⟩
      · rw [heq]
        exact Safe.rc _
    · exact safe_iff.mpr ⟨(berDecodeRsaPrivateKey_inside_iff hlt).mpr halg,
        yields_berDecodeRsaPrivateKey⟩
    · exact safe_iff.mpr ⟨(berDecodeRsaPublicKey_inside_iff hlt).mpr hspki,
        yields_berDecodeRsaPublicKey⟩
    · exact safe_iff.mpr ⟨(berDecodeDsaPrivateKey_inside_iff hlt).mpr hdsa,
        yields_berDecodeDsaPrivateKey⟩
    · exact safe_iff.mpr ⟨(berDecodeDsaPublicKey_inside_iff hlt).mpr hspki',
        yields_berDecodeDsaPublicKey⟩
    · intro keyType
      exact safe_iff.mpr ⟨(derDecodeEcPrivateKey_inside_iff keyType hlt).mpr fun _ => halg',
        yields_derDecodeEcPrivateKey keyType⟩
    · intro keyType
      exact safe_iff.mpr ⟨(derDecodeEcPublicKey_inside_iff keyType hlt).mpr fun _ => hspki',
        yields_derDecodeEcPublicKey keyType⟩

/-- The `PrivateKeyInfo` of the RSA key with modulus 15. -/
def smallRsaKeyInfo : List UInt8 :=
  [0x30, 0x31, 0x02, 0x01, 0x00,
   0x30, 0x0D, 0x06, 0x09, 0x2A, 0x86, 0x48, 0x86, 0xF7, 0x0D, 0x01, 0x01, 0x01, 0x05, 0x00,
   0x04, 0x1D, 0x30, 0x1B, 0x02, 0x01, 0x00, 0x02, 0x01, 0x0F, 0x02, 0x01, 0x03, 0x02, 0x01, 0x03,
   0x02, 0x01, 0x05, 0x02, 0x01, 0x03, 0x02, 0x01, 0x03, 0x02, 0x01, 0x01, 0x02, 0x01, 0x02]

/-- The key is decoded, and all the functions stay inside it. -/
theorem decoders_inside_rsa_key :
    (berDecodeRsaPrivateKey smallRsaKeyInfo smallRsaKeyInfo.length).toOption.isSome ∧
      DecodersInside smallRsaKeyInfo := by
  have hlt : smallRsaKeyInfo.length < 2 ^ 64 := by decide
  refine ⟨by decide, (decoders_inside_iff smallRsaKeyInfo hlt).mpr ⟨?_, ?_, ?_⟩⟩
  · exact (berDecodeRsaPrivateKey_inside_iff hlt).mp (by decide)
  · exact (berDecodeRsaPublicKey_inside_iff hlt).mp (by decide)
  · exact (berDecodeDsaPrivateKey_inside_iff hlt).mp (by decide)

/-- A `PrivateKeyInfo` of nine bytes, with an empty algorithm identifier: all the comparisons read
behind it. -/
theorem decoders_overread :
    let data : List UInt8 := [0x30, 0x07, 0x02, 0x01, 0x00, 0x30, 0x00, 0x04, 0x00]
    berDecodeRsaPrivateKey data data.length = .error .fault ∧
      berDecodeDsaPrivateKey data data.length = .error .fault ∧
      derDecodeEcPrivateKey .ec data data.length = .error .fault := by
  decide

end OpenCryptoki.Proofs.Common
