import OpenCryptoki.Proofs.Common.Template

/-!
# `OpenCryptoki.Proofs.Common.Unflatten`: what a template that was read back looks like

Whatever the bytes are, the attributes that unflattening returns fit the stored form (`AllFit`),
their types are distinct, and storing them again takes at most twice the bytes that were read: four
bytes are read for a value of one to three bytes of the narrowed types, so it can be more than once.
A template that comes back unchanged has these properties too, which bounds what can be stored.

* `templateUnflatten_fits` is the result for a template.
* `attributesFlatten_isSome_iff`: what is written without reading behind a value.
-/

set_option autoImplicit false

namespace OpenCryptoki.Proofs.Common

open Lib OpenCryptoki.Common List

/-! ### Lists of attributes -/

variable {as tmpl : List CkAttribute}

/-- All attributes fit. -/
theorem allFit_iff {o : ByteOrder} : AllFit o as ↔ ∀ a ∈ as, Fits o a := by
  induction as with
  | nil => simp [AllFit]
  | cons a as ih => simp [AllFit, ih]

/-- The order does not change the size. -/
theorem compressedSize_perm {bs : List CkAttribute} (h : as.Perm bs) :
    attributesGetCompressedSize as = attributesGetCompressedSize bs := by
  induction h with
  | nil => rfl
  | cons a _ ih => rw [attributesGetCompressedSize, attributesGetCompressedSize, ih]
  | swap a b as =>
    simp only [attributesGetCompressedSize]
    omega
  | trans _ _ ih₁ ih₂ => exact ih₁.trans ih₂

/-- Fewer attributes have a smaller size. -/
theorem compressedSize_sublist {bs : List CkAttribute} (h : as.Sublist bs) :
    attributesGetCompressedSize as ≤ attributesGetCompressedSize bs := by
  induction h with
  | slnil => exact le_rfl
  | cons a _ ih =>
    rw [attributesGetCompressedSize]
    omega
  | cons_cons a _ ih =>
    rw [attributesGetCompressedSize, attributesGetCompressedSize]
    omega

/-- Every attribute has a header. -/
theorem length_le_compressedSize (as : List CkAttribute) :
    12 * as.length ≤ attributesGetCompressedSize as := by
  induction as with
  | nil => exact le_rfl
  | cons a as ih =>
    have : 12 ≤ attributeGetCompressedSize a := by
      cases a <;> rw [attributeGetCompressedSize, SIZEOF_CK_ATTRIBUTE_32] <;> omega
    rw [attributesGetCompressedSize, length_cons]
    omega

/-! ### Writing without a fault -/

mutual

/-- A value that is narrowed is empty or has the eight bytes that are read. -/
def ReadableAttr : CkAttribute → Prop
  | .plain type value _ =>
      flattenUlongAttributeAsUlong32 type = true → value = [] ∨ SIZEOF_CK_ULONG ≤ value.length
  | .array _ elements _ => ReadableAttrs elements

def ReadableAttrs : List CkAttribute → Prop
  | [] => True
  | a :: as => ReadableAttr a ∧ ReadableAttrs as

end

/-- When a value can be flattened. -/
theorem plainFlatten_isSome_iff (o : ByteOrder) {type : Nat} {value : List UInt8}
    {h : isAttributeAttrArray type = false} :
    (plainFlatten o type value).isSome ↔ ReadableAttr (.plain type value h) := by
  rw [ReadableAttr, plainFlatten, readUlong]
  cases htype : flattenUlongAttributeAsUlong32 type with
  | false => simp
  | true =>
    by_cases hval : value = []
    · simp [hval]
    · have hlen : value.length ≠ 0 := fun hl => hval (eq_nil_of_length_eq_zero hl)
      by_cases h8 : SIZEOF_CK_ULONG ≤ value.length
      · simp [hlen, h8]
      · simp [hlen, h8, hval]

/-- When a template can be flattened. -/
theorem attributesFlatten_isSome_iff (o : ByteOrder) (as : List CkAttribute) :
    (attributesFlatten o as).isSome ↔ ReadableAttrs as := by
  induction as using attributes_induction with
  | hnil => exact iff_of_true rfl trivial
  | hplain type value h as ih =>
    rw [ReadableAttrs, ← ih, ← plainFlatten_isSome_iff o (h := h)]
    simp only [attributesFlatten, attributeFlatten, Option.bind_eq_bind]
    cases plainFlatten o type value <;> cases attributesFlatten o as <;> simp
  | harray type es h as ihes ihas =>
    rw [ReadableAttrs, ReadableAttr, ← ihes, ← ihas]
    simp only [attributesFlatten, attributeFlatten, Option.bind_eq_bind]
    cases attributesFlatten o es <;> cases attributesFlatten o as <;> simp

/-- What is written has the size that was computed. -/
theorem length_attributesFlatten {o : ByteOrder} (as : List CkAttribute) :
    ∀ bytes, attributesFlatten o as = some bytes →
      bytes.length = attributesGetCompressedSize as := by
  induction as using attributes_induction with
  | hnil =>
    intro bytes h
    cases h
    rfl
  | hplain type value h as ih =>
    intro bytes hbytes
    simp only [attributesFlatten, attributeFlatten, Option.bind_eq_bind,
      Option.bind_eq_some_iff] at hbytes
    obtain ⟨first, hfirst, rest, hrest, hcat⟩ := hbytes
    cases hcat
    have hlen : first.length = attributeGetCompressedSize (.plain type value h) := by
      rw [attributeGetCompressedSize]
      unfold plainFlatten at hfirst
      split at hfirst
      · rename_i hword
        obtain ⟨val, -, rfl⟩ := Option.map_eq_some_iff.mp hfirst
        rw [if_pos hword, length_append, length_attribute32Bytes, length_wordBytes]
        rfl
      · rename_i hword
        cases hfirst
        rw [if_neg hword, length_append, length_attribute32Bytes]
        rfl
    rw [attributesGetCompressedSize, length_append, hlen, ih rest hrest]
  | harray type es h as ihes ihas =>
    intro bytes hbytes
    simp only [attributesFlatten, attributeFlatten, Option.bind_eq_bind,
      Option.bind_eq_some_iff, Option.map_eq_some_iff] at hbytes
    obtain ⟨_, ⟨body, hbody, rfl⟩, rest, hrest, hcat⟩ := hbytes
    cases hcat
    rw [attributesGetCompressedSize, attributeGetCompressedSize, length_append,
      length_append, length_attribute32Bytes, ihes body hbody, ihas rest hrest]
    rfl

/-! ### Reading -/

/-- A value that was read fits the stored form. -/
theorem fits_plainValue (o : ByteOrder) (data : Buf) (ptr : Nat) {a : CkAttribute32}
    (ha : a = readAttribute32 o data ptr) (h : isAttributeAttrArray a.type = false) :
    Fits o (.plain a.type (plainValue o data ptr a) h) ∧
      attributeGetCompressedSize (.plain a.type (plainValue o data ptr a) h) =
        if flattenUlongAttributeAsUlong32 a.type && a.ulValueLen ≠ 0 then 16
        else 12 + a.ulValueLen := by
  have htype : a.type < 2 ^ 32 := by
    rw [ha]
    have := wordValue_lt o (data.read ptr 4)
    rwa [Buf.length_read] at this
  have hlen : a.ulValueLen < 2 ^ 32 := by
    rw [ha]
    have := wordValue_lt o (data.read (ptr + 8) 4)
    rwa [Buf.length_read] at this
  have hval : wordValue o (data.read (ptr + SIZEOF_CK_ATTRIBUTE_32) 4) < 2 ^ 32 := by
    have := wordValue_lt o (data.read (ptr + SIZEOF_CK_ATTRIBUTE_32) 4)
    rwa [Buf.length_read] at this
  rw [attributeGetCompressedSize]
  unfold Fits plainValue
  by_cases hword : (flattenUlongAttributeAsUlong32 a.type && a.ulValueLen ≠ 0) = true
  · have htrue := (Bool.and_eq_true_iff.mp hword).1
    simp only [if_pos hword, length_wordBytes]
    have hback : wordValue o (wordBytes o SIZEOF_CK_ULONG
        (wordValue o (data.read (ptr + SIZEOF_CK_ATTRIBUTE_32) 4))) < 2 ^ 32 := by
      rw [wordValue_wordBytes_of_lt]
      · exact hval
      · exact hval.trans_le (by decide)
    refine ⟨⟨htype, by decide, fun _ => .inr ⟨rfl, hback⟩⟩, ?_⟩
    simp [htrue, SIZEOF_CK_ULONG, SIZEOF_CK_ATTRIBUTE_32, SIZEOF_CK_ULONG_32]
  · simp only [if_neg hword, Buf.length_read]
    refine ⟨⟨htype, hlen, fun htrue => .inl ?_⟩, rfl⟩
    have hzero : a.ulValueLen = 0 := by simpa [htrue] using hword
    rw [hzero, Buf.read_zero]

/-- What the loop over an array returns: the elements fit, and they take at most twice the bytes
between the pointers. -/
structure ElementsRead (o : ByteOrder) (ptr bufLen : Nat) (r : List CkAttribute × Nat) : Prop where
  fits : AllFit o r.1
  forward : ptr ≤ r.2
  inside : r.2 ≤ ptr + bufLen
  size : attributesGetCompressedSize r.1 ≤ 2 * (r.2 - ptr)

/-- An array attribute whose elements were read. -/
theorem fits_array {o : ByteOrder} {data : Buf} {ptr size : Nat} {r : List CkAttribute × Nat}
    (h : isAttributeAttrArray (readAttribute32 o data ptr).type = true) (hsize : size < 2 ^ 31)
    (hr : ElementsRead o (ptr + 12) (size - 12) r) :
    Fits o (.array (readAttribute32 o data ptr).type r.1 h) := by
  have hinside := hr.inside
  have hbytes := hr.size
  have hlt : (readAttribute32 o data ptr).type < 2 ^ 32 := by
    have := wordValue_lt o (data.read ptr 4)
    rwa [Buf.length_read] at this
  exact ⟨hlt, by omega, hr.fits⟩

/-- Induction for `attribute_array_unflatten` (`P`) and its loop (`Q`), which call each other: the
elements of an array are read behind its header, and an array inside of an array with at most the
same length. -/
theorem unflatten_induction {P Q : Nat → Prop}
    (array : ∀ n, (SIZEOF_CK_ATTRIBUTE_32 ≤ n → Q (n - SIZEOF_CK_ATTRIBUTE_32)) → P n)
    (loop : ∀ n, (∀ m, m ≤ n → P m) → (∀ m, m < n → Q m) → Q n) (n : Nat) : P n ∧ Q n := by
  induction n using Nat.strong_induction_on with
  | _ n ih =>
    have hsize12 : SIZEOF_CK_ATTRIBUTE_32 = 12 := rfl
    have hP : P n := array n fun hle => (ih _ (by omega)).2
    refine ⟨hP, loop n (fun m hm => ?_) fun m hm => (ih m hm).2⟩
    rcases lt_or_eq_of_le hm with hm | rfl
    · exact (ih m hm).1
    · exact hP

section Array

variable {o : ByteOrder} {data : Buf} {bufLen : Nat} {r : List CkAttribute × Nat}

/-- The elements of an array are those that its loop returns. -/
theorem attributeArrayUnflatten_read {buf : Nat}
    (ih : ∀ ulValueLen ofs ptr r, attributeArrayLoop o data ulValueLen ofs ptr (bufLen - 12) =
      .ok r →
      ElementsRead o ptr (bufLen - 12) r)
    (h : attributeArrayUnflatten o data buf bufLen = .ok r) :
    12 ≤ bufLen ∧ ElementsRead o (buf + 12) (bufLen - 12) r := by
  rw [attributeArrayUnflatten] at h
  split at h
  · cases h
  · rename_i hlen
    dsimp only at h
    split at h
    · cases h
    · split at h
      · cases h
      · exact ⟨not_lt.mp hlen, ih _ _ _ _ h⟩

/-- One round of the loop, and then the rest. -/
theorem attributeArrayLoop_read {ulValueLen ofs ptr : Nat} (hlt : bufLen < 2 ^ 31)
    (ihArray : ∀ buf size r, size ≤ bufLen → attributeArrayUnflatten o data buf size = .ok r →
      12 ≤ size ∧ ElementsRead o (buf + 12) (size - 12) r)
    (ihLoop : ∀ n, n < bufLen → ∀ ulValueLen ofs ptr r,
      attributeArrayLoop o data ulValueLen ofs ptr n = .ok r → ElementsRead o ptr n r)
    (h : attributeArrayLoop o data ulValueLen ofs ptr bufLen = .ok r) :
    ElementsRead o ptr bufLen r := by
  rw [attributeArrayLoop] at h
  split at h
  · obtain ⟨hhead, h⟩ := ite_error_left_eq_ok.mp h
    have hsize12 : SIZEOF_CK_ATTRIBUTE_32 = 12 := rfl
    obtain ⟨hfit, h⟩ := ite_error_left_eq_ok.mp h
    split at h
    · -- an array inside of the array
      rename_i htype
      obtain ⟨⟨es, ptr'⟩, hes, h⟩ := bind_eq_ok.mp h
      obtain ⟨⟨as, ptr''⟩, has, h⟩ := bind_eq_ok.mp h
      cases h
      obtain ⟨-, hread⟩ := ihArray _ _ _ (by omega) hes
      have hrest := ihLoop _ (by omega) _ _ _ _ has
      have hfits := fits_array htype (by omega) hread
      have h₁ := hread.forward
      have h₂ := hread.inside
      have h₃ := hread.size
      have h₄ := hrest.forward
      have h₅ := hrest.inside
      have h₆ := hrest.size
      simp only at h₁ h₂ h₃ h₄ h₅ h₆
      refine ⟨⟨hfits, hrest.fits⟩, ?_, ?_, ?_⟩
      · omega
      · omega
      · simp only [attributesGetCompressedSize, attributeGetCompressedSize]
        omega
    · rename_i htype
      obtain ⟨-, h⟩ := ite_error_left_eq_ok.mp h
      -- a value of bytes
      obtain ⟨⟨as, ptr''⟩, has, h⟩ := bind_eq_ok.mp h
      cases h
      have hrest := ihLoop _ (by omega) _ _ _ _ has
      obtain ⟨hfits, hbytes⟩ := fits_plainValue o data ptr rfl (Bool.eq_false_iff.mpr htype)
      have h₄ := hrest.forward
      have h₅ := hrest.inside
      have h₆ := hrest.size
      simp only at h₄ h₅ h₆
      have hbound : attributeGetCompressedSize (.plain (readAttribute32 o data ptr).type
          (plainValue o data ptr (readAttribute32 o data ptr)) (Bool.eq_false_iff.mpr htype)) ≤
          2 * (12 + (readAttribute32 o data ptr).ulValueLen) := by
        rw [hbytes]
        split <;> omega
      refine ⟨⟨hfits, hrest.fits⟩, ?_, ?_, ?_⟩
      · omega
      · omega
      · simp only [attributesGetCompressedSize]
        omega
  · cases h
    exact ⟨trivial, le_rfl, le_self_add, zero_le⟩

end Array

/-- What is read from an array, and from the rest of one. -/
theorem arrayUnflatten_read (o : ByteOrder) (data : Buf) (bufLen : Nat) (hlt : bufLen < 2 ^ 31) :
    (∀ buf r, attributeArrayUnflatten o data buf bufLen = .ok r →
        12 ≤ bufLen ∧ ElementsRead o (buf + 12) (bufLen - 12) r) ∧
      (∀ ulValueLen ofs ptr r, attributeArrayLoop o data ulValueLen ofs ptr bufLen = .ok r →
        ElementsRead o ptr bufLen r) := by
  -- The bound is part of what is proved by induction, because the lengths get smaller.
  have hall := unflatten_induction
    (P := fun n => n < 2 ^ 31 → ∀ buf r, attributeArrayUnflatten o data buf n = .ok r →
      12 ≤ n ∧ ElementsRead o (buf + 12) (n - 12) r)
    (Q := fun n => n < 2 ^ 31 → ∀ ulValueLen ofs ptr r,
      attributeArrayLoop o data ulValueLen ofs ptr n = .ok r → ElementsRead o ptr n r)
    (fun n ih hn buf r h => by
      by_cases h12 : n < SIZEOF_CK_ATTRIBUTE_32
      · rw [attributeArrayUnflatten, if_pos h12] at h
        cases h
      · exact attributeArrayUnflatten_read (ih (by omega) (by omega)) h)
    (fun n ihArray ihLoop hn ulValueLen ofs ptr r h =>
      attributeArrayLoop_read hn (fun buf size r hsize => ihArray size hsize (by omega) buf r)
        (fun m hm => ihLoop m hm (by omega)) h)
    bufLen
  exact ⟨hall.1 hlt, hall.2 hlt⟩

/-- A template that can be stored, of limited size. -/
structure TemplateRead (o : ByteOrder) (size : Nat) (tmpl : List CkAttribute) : Prop where
  fits : AllFit o tmpl
  distinct : (tmpl.map CkAttribute.type).Nodup
  size : attributesGetCompressedSize tmpl ≤ size

/-- Updating an attribute keeps the types distinct. -/
theorem nodup_templateUpdateAttribute (h : (tmpl.map CkAttribute.type).Nodup) (a : CkAttribute) :
    ((templateUpdateAttribute tmpl a).map CkAttribute.type).Nodup := by
  have hsub : (tmpl.eraseP fun b => b.type = a.type).Sublist tmpl := eraseP_sublist
  rw [templateUpdateAttribute, map_cons, nodup_cons]
  refine ⟨fun hmem => ?_, h.sublist (hsub.map _)⟩
  -- the first attribute of the type is erased, and there is no second one
  obtain ⟨b, hb, hbt⟩ := mem_map.mp hmem
  obtain ⟨b', l₁, l₂, hb', hp, hl, herase⟩ :=
    exists_of_eraseP (p := fun b => decide (b.type = a.type)) (hsub.subset hb)
      (decide_eq_true hbt)
  rw [herase] at hb
  rw [hl, map_append, map_cons, nodup_append] at h
  have hbt' : b.type = b'.type := hbt.trans (of_decide_eq_true hp).symm
  rcases mem_append.mp hb with hb₁ | hb₂
  · exact h.2.2 _ (mem_map_of_mem hb₁) _ mem_cons_self hbt'
  · exact (nodup_cons.mp h.2.1).1 (hbt' ▸ mem_map_of_mem hb₂)

/-- One attribute more keeps what has been read in order. -/
theorem templateRead_update {o : ByteOrder} {size size' : Nat} {a : CkAttribute}
    (h : TemplateRead o size tmpl) (ha : Fits o a)
    (hsize : attributeGetCompressedSize a + size ≤ size') :
    TemplateRead o size' (templateUpdateAttribute tmpl a) := by
  refine ⟨allFit_iff.mpr fun b hb => ?_, nodup_templateUpdateAttribute h.distinct a, ?_⟩
  · rcases mem_cons.mp hb with rfl | hb
    · exact ha
    · exact allFit_iff.mp h.fits b (eraseP_sublist.subset hb)
  · have hsub : (tmpl.eraseP fun b => b.type = a.type).Sublist tmpl := eraseP_sublist
    have := compressedSize_sublist hsub
    have := h.size
    rw [templateUpdateAttribute, attributesGetCompressedSize]
    omega

/-- The loop over the attributes of a template. -/
theorem templateUnflattenLoop_read {o : ByteOrder} {data : Buf} {bufEnd : Nat}
    (hend : bufEnd < 2 ^ 31) :
    ∀ n ptr size tmpl r, TemplateRead o size tmpl →
      templateUnflattenLoop o data bufEnd n ptr tmpl = .ok r →
      TemplateRead o (size + 2 * (bufEnd - ptr)) r := by
  intro n
  have hsize12 : SIZEOF_CK_ATTRIBUTE_32 = 12 := rfl
  induction n with
  | zero =>
    intro ptr size tmpl r ht h
    cases h
    exact ⟨ht.fits, ht.distinct, Nat.le_add_right_of_le ht.size⟩
  | succ n ih =>
    intro ptr size tmpl r ht h
    rw [templateUnflattenLoop] at h
    obtain ⟨hhead, h⟩ := ite_error_left_eq_ok.mp h
    dsimp only at h
    split at h
    · rename_i htype
      obtain ⟨hroom, h⟩ := ite_error_left_eq_ok.mp h
      obtain ⟨⟨es, ptr'⟩, hes, h⟩ := bind_eq_ok.mp h
      obtain ⟨-, hread⟩ := (arrayUnflatten_read o data _ (by omega)).1 _ _ hes
      have hfits := fits_array htype (by omega) hread
      have h₁ := hread.forward
      have h₂ := hread.inside
      have h₃ := hread.size
      simp only at h₁ h₂ h₃
      have hnew := ih ptr' _ _ r (templateRead_update ht hfits le_rfl) h
      refine ⟨hnew.fits, hnew.distinct, hnew.size.trans ?_⟩
      rw [attributeGetCompressedSize]
      dsimp only
      omega
    · rename_i htype
      obtain ⟨hfits, hbytes⟩ := fits_plainValue o data ptr rfl (Bool.eq_false_iff.mpr htype)
      by_cases hword : (flattenUlongAttributeAsUlong32 (readAttribute32 o data ptr).type &&
          (readAttribute32 o data ptr).ulValueLen ≠ 0) = true
      · -- four bytes are there, whatever the length in the header is
        rw [if_pos hword] at h hbytes
        obtain ⟨hroom, h⟩ := ite_error_left_eq_ok.mp h
        have hnew := ih _ _ _ r (templateRead_update ht hfits le_rfl) h
        refine ⟨hnew.fits, hnew.distinct, hnew.size.trans ?_⟩
        omega
      · rw [if_neg hword] at h hbytes
        obtain ⟨hroom, h⟩ := ite_error_left_eq_ok.mp h
        have hnew := ih _ _ _ r (templateRead_update ht hfits le_rfl) h
        refine ⟨hnew.fits, hnew.distinct, hnew.size.trans ?_⟩
        omega

/-- What is read back from a buffer of less than 2^31 bytes. -/
theorem templateUnflatten_fits {o : ByteOrder} {data : Buf} {buf count bufSize : Nat}
    (hend : buf + bufSize < 2 ^ 31)
    (h : templateUnflattenWithSize o data buf count bufSize = .ok tmpl) :
    TemplateRead o (2 * bufSize) tmpl := by
  have hread := templateUnflattenLoop_read hend count buf 0 [] tmpl
    ⟨trivial, nodup_nil, le_rfl⟩ h
  rwa [Nat.add_sub_cancel_left, zero_add] at hread

end OpenCryptoki.Proofs.Common
