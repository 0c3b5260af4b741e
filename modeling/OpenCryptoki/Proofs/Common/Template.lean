import OpenCryptoki.Common.Template

/-!
# `OpenCryptoki.Proofs.Common.Template`: a stored object is restored

Three walks go over the attributes of a template: the one that computes the size, the one that
writes and the one that reads. `length_attributesFlatten` ties the first two together, at every
nesting depth. Reading is described by where the bytes stand in the buffer (`Stands`), so that
what follows an attribute does not matter. `attributeArrayLoop_eq` says that the loop over an
array returns the elements that were written, in order; it is an induction over nested lists of
attributes. The loop over a template puts each attribute in front of the ones before, so the
template comes back in reverse order (`templateUnflattenLoop_eq`).
-/

set_option autoImplicit false

namespace OpenCryptoki.Proofs.Common

open Lib OpenCryptoki.Common
open List (append_assoc length_append map_cons)
open Option (bind_eq_bind bind_some map_some)

/-! ### Nested lists of attributes -/

section Induction

variable {motive : List CkAttribute → Prop}

mutual

/-- Induction over the attributes and those inside arrays. -/
private theorem elements_induction (hnil : motive [])
    (hplain : ∀ type value h as, motive as → motive (.plain type value h :: as))
    (harray : ∀ type es h as, motive es → motive as → motive (.array type es h :: as)) :
    ∀ (a : CkAttribute) (as : List CkAttribute), motive as → motive (a :: as)
  | .plain type value h, as, has => hplain type value h as has
  | .array type es h, as, has =>
      harray type es h as (attributes_induction hnil hplain harray es) has

/-- Induction over a list of attributes and the lists inside of its arrays. -/
theorem attributes_induction (hnil : motive [])
    (hplain : ∀ type value h as, motive as → motive (.plain type value h :: as))
    (harray : ∀ type es h as, motive es → motive as → motive (.array type es h :: as)) :
    ∀ as : List CkAttribute, motive as
  | [] => hnil
  | a :: as =>
      elements_induction hnil hplain harray a as (attributes_induction hnil hplain harray as)

end

end Induction

/-! ### Objects that can be stored -/

mutual

/-- The type and the lengths of an attribute fit 32 bits, and a value that is stored in four
bytes is empty or a `CK_ULONG` that fits them. -/
def Fits (o : ByteOrder) : CkAttribute → Prop
  | .plain type value _ =>
      type < 2 ^ 32 ∧ value.length < 2 ^ 32 ∧ (flattenUlongAttributeAsUlong32 type = true →
          value = [] ∨ value.length = 8 ∧ wordValue o value < 2 ^ 32)
  | .array type elements _ =>
      type < 2 ^ 32 ∧ attributesGetCompressedSize elements < 2 ^ 32 ∧ AllFit o elements

def AllFit (o : ByteOrder) : List CkAttribute → Prop
  | [] => True
  | a :: as => Fits o a ∧ AllFit o as

end

/-- The objects of the round trip. -/
structure Storable (o : ByteOrder) (obj : CkObject) : Prop where
  cls : obj.cls < 2 ^ 32
  count : obj.template.length < 2 ^ 32
  distinct : (obj.template.map CkAttribute.type).Nodup
  fits : AllFit o obj.template

/-! ### Writing -/

/-- The header of an attribute has 12 bytes. -/
theorem length_attribute32Bytes (o : ByteOrder) (type len : Nat) :
    (attribute32Bytes o type len).length = 12 := by
  simp [attribute32Bytes]

/-- The value of type `type` is stored as `bytes`: they are written behind a header with their
length, and they are widened to the value again. -/
structure StoredAs (o : ByteOrder) (type : Nat) (value bytes : List UInt8) : Prop where
  flatten : plainFlatten o type value = some (attribute32Bytes o type bytes.length ++ bytes)
  short : bytes.length < 2 ^ 32
  word : flattenUlongAttributeAsUlong32 type = true → bytes.length = 0 ∨ bytes.length = 4
  value : value = if flattenUlongAttributeAsUlong32 type && bytes.length ≠ 0 then
    wordBytes o 8 (wordValue o bytes) else bytes

variable {o : ByteOrder} {type ptr n len ulValueLen ofs bufLen bufEnd : Nat}
  {value bytes body : List UInt8} {es tmpl : List CkAttribute} {data : Buf} {obj : CkObject}

/-- A value that fits is stored, in the number of bytes that the size computation says. -/
theorem exists_storedAs {h : isAttributeAttrArray type = false}
    (hfits : Fits o (.plain type value h)) :
    ∃ bytes, StoredAs o type value bytes ∧
      attributeGetCompressedSize (.plain type value h) = 12 + bytes.length := by
  obtain ⟨-, hlen, hnarrow⟩ := hfits
  rw [attributeGetCompressedSize]
  by_cases hword : (flattenUlongAttributeAsUlong32 type && value.length ≠ 0) = true
  · -- A narrowed type with a value: the value is a word of eight bytes.
    obtain ⟨htype, hne⟩ := Bool.and_eq_true_iff.mp hword
    obtain ⟨hlen8, hlt⟩ : value.length = 8 ∧ wordValue o value < 2 ^ 32 := by
      rcases hnarrow htype with rfl | hval
      · cases hne
      · exact hval
    have hread : readUlong o value = some (wordValue o value) := by
      rw [readUlong, SIZEOF_CK_ULONG, if_pos hlen8.ge,
        List.take_of_length_le hlen8.le]
    have hlt' : wordValue o value < 256 ^ 4 := hlt
    refine ⟨wordBytes o 4 (wordValue o value), ⟨?_, ?_, fun _ => .inr (length_wordBytes _ _ _), ?_⟩,
      ?_⟩
    · rw [plainFlatten, if_pos hword, hread, length_wordBytes]
      rfl
    · rw [length_wordBytes]
      decide
    · rw [htype, length_wordBytes, if_pos (by decide), wordValue_wordBytes_of_lt hlt', ← hlen8,
        wordBytes_wordValue]
    · rw [if_pos hword, length_wordBytes]
      rfl
  · -- Any other value is stored as it is, and so is the empty value of a narrowed type.
    refine ⟨value, ⟨by rw [plainFlatten, if_neg hword], hlen, fun htype => .inl ?_, ?_⟩, ?_⟩
    · simpa [htype] using hword
    · rw [if_neg hword]
    · rw [if_neg hword]
      rfl

variable (as : List CkAttribute)

/-- What the writer of an array stores is what the size computation says, so the header of an
array has the length of its body. -/
theorem attributesFlatten_eq (hfit : AllFit o as) :
    ∃ bytes, attributesFlatten o as = some bytes ∧
      bytes.length = attributesGetCompressedSize as := by
  induction as using attributes_induction with
  | hnil => exact ⟨[], rfl, rfl⟩
  | hplain type value h as ih =>
    obtain ⟨bytes, hstored, hsize⟩ := exists_storedAs hfit.1
    obtain ⟨rest, hrest, hlen⟩ := ih hfit.2
    refine ⟨_, by simp only [attributesFlatten, attributeFlatten, hstored.flatten, hrest,
      bind_eq_bind, bind_some]; rfl, ?_⟩
    rw [attributesGetCompressedSize, hsize, length_append, length_append,
      length_attribute32Bytes, hlen]
  | harray type es h as ihes ihas =>
    obtain ⟨body, hbody, hlenb⟩ := ihes hfit.1.2.2
    obtain ⟨rest, hrest, hlen⟩ := ihas hfit.2
    refine ⟨_, by simp only [attributesFlatten, attributeFlatten, hbody, hrest,
      bind_eq_bind, bind_some, map_some]; rfl, ?_⟩
    rw [attributesGetCompressedSize, attributeGetCompressedSize, length_append,
      length_append, length_attribute32Bytes, hlen, hlenb]
    rfl

/-- What the writer stores for an array: a header with the length of the body, and the body. -/
theorem attributeFlatten_array {h : isAttributeAttrArray type = true}
    (hfits : Fits o (.array type es h)) :
    ∃ body, attributesFlatten o es = some body ∧ body.length < 2 ^ 32 ∧
      attributeFlatten o (.array type es h)
        = some (attribute32Bytes o type body.length ++ body) := by
  obtain ⟨-, hlt, hes⟩ := hfits
  obtain ⟨body, hbody, hlen⟩ := attributesFlatten_eq es hes
  exact ⟨body, hbody, by rw [hlen]; exact hlt,
    by rw [attributeFlatten, hbody, map_some, hlen]⟩

/-! ### Where the bytes stand -/

/-- The bytes stand in the buffer from `ptr` on. -/
def Stands (data : Buf) (ptr : Nat) (bytes : List UInt8) : Prop :=
  data.read ptr bytes.length = bytes

/-- Two parts that follow each other. -/
theorem stands_append {xs ys : List UInt8} :
    Stands data ptr (xs ++ ys) ↔ Stands data ptr xs ∧ Stands data (ptr + xs.length) ys := by
  rw [Stands, length_append, Buf.read_add]
  constructor
  · intro h
    exact List.append_inj h (Buf.length_read _ _ _)
  · rintro ⟨hx, hy⟩
    rw [hx, hy]

/-- A number comes back from its bytes. -/
theorem Stands.wordValue_eq {v : Nat} (h : Stands data ptr (wordBytes o n v)) (hv : v < 256 ^ n) :
    wordValue o (data.read ptr n) = v := by
  rw [Stands, length_wordBytes] at h
  rw [h, wordValue_wordBytes_of_lt hv]

/-- The header of an attribute is read as it was written. -/
theorem Stands.attribute32 (h : Stands data ptr (attribute32Bytes o type len ++ bytes))
    (htype : type < 2 ^ 32) (hlen : len < 2 ^ 32) :
    readAttribute32 o data ptr = ⟨type, len⟩ ∧ Stands data (ptr + 12) bytes := by
  obtain ⟨hhead, hbytes⟩ := stands_append.mp h
  rw [length_attribute32Bytes] at hbytes
  obtain ⟨htp, hlast⟩ := stands_append.mp hhead
  obtain ⟨hfirst, -⟩ := stands_append.mp htp
  have hlast' : Stands data (ptr + 8) (wordBytes o 4 len) := by
    simpa using hlast
  rw [readAttribute32, hfirst.wordValue_eq htype, hlast'.wordValue_eq hlen]
  exact ⟨rfl, hbytes⟩

/-- A value is read as it was before it was written. -/
theorem Stands.plainValue_eq (h : Stands data (ptr + 12) bytes)
    (hstored : StoredAs o type value bytes) :
    plainValue o data ptr ⟨type, bytes.length⟩ = value := by
  rw [plainValue, hstored.value]
  split
  · rename_i hcond
    obtain ⟨htype, hne⟩ := Bool.and_eq_true_iff.mp hcond
    have hlen : bytes.length = 4 := (hstored.word htype).resolve_left (by simpa using hne)
    rw [Stands, hlen] at h
    rw [SIZEOF_CK_ATTRIBUTE_32, h]
    rfl
  · exact h

/-! ### Reading -/

/-- A turn of the loop over an array, at an element with a value of bytes. -/
theorem attributeArrayLoop_plain (h : isAttributeAttrArray type = false)
    (hread : readAttribute32 o data ptr = ⟨type, bytes.length⟩)
    (hstored : StoredAs o type value bytes) (hstands : Stands data (ptr + 12) bytes)
    (hofs : ofs < ulValueLen) (hbuf : 12 + bytes.length ≤ bufLen) :
    attributeArrayLoop o data ulValueLen ofs ptr bufLen
      = (attributeArrayLoop o data ulValueLen (ofs + (12 + bytes.length))
          (ptr + (12 + bytes.length)) (bufLen - (12 + bytes.length))).map
            fun r => (.plain type value h :: r.1, r.2) := by
  have hvalue := hstands.plainValue_eq hstored
  have h12 : SIZEOF_CK_ATTRIBUTE_32 = 12 := rfl
  have hroom : ¬ (flattenUlongAttributeAsUlong32 type && bytes.length > 0 &&
      bufLen < SIZEOF_CK_ATTRIBUTE_32 + SIZEOF_CK_ULONG_32) = true := by
    have h4 : SIZEOF_CK_ULONG_32 = 4 := rfl
    simp only [Bool.and_eq_true, decide_eq_true_eq, not_and]
    intro hcond
    have hlen := hstored.word hcond.1
    omega
  rw [attributeArrayLoop, if_pos hofs, if_neg (by omega)]
  simp only [hread]
  rw [if_neg (by omega), dif_neg (by simp [h]), if_neg hroom, hvalue, h12]
  cases attributeArrayLoop o data ulValueLen (ofs + (12 + bytes.length))
    (ptr + (12 + bytes.length)) (bufLen - (12 + bytes.length)) <;> rfl

section
variable (h : isAttributeAttrArray type = true) (hread : readAttribute32 o data ptr = ⟨type, len⟩)
include h hread

/-- A turn of the loop over an array, at an element that is an array. -/
theorem attributeArrayLoop_array
    (hes : attributeArrayUnflatten o data ptr (12 + len) = .ok (es, ptr + (12 + len)))
    (hofs : ofs < ulValueLen) (hbuf : 12 + len ≤ bufLen) :
    attributeArrayLoop o data ulValueLen ofs ptr bufLen
      = (attributeArrayLoop o data ulValueLen (ofs + (12 + len)) (ptr + (12 + len))
          (bufLen - (12 + len))).map fun r => (.array type es h :: r.1, r.2) := by
  have h12 : SIZEOF_CK_ATTRIBUTE_32 = 12 := rfl
  rw [attributeArrayLoop, if_pos hofs, if_neg (by omega)]
  simp only [hread]
  rw [if_neg (by omega), dif_pos h, h12, hes]
  dsimp only [bind, Except.bind]
  cases attributeArrayLoop o data ulValueLen (ofs + (12 + len)) (ptr + (12 + len))
    (bufLen - (12 + len)) <;> rfl

/-- Reading an array is running the loop over its body. -/
theorem attributeArrayUnflatten_eq :
    attributeArrayUnflatten o data ptr (12 + len)
      = attributeArrayLoop o data len 0 (ptr + 12) len := by
  have h12 : SIZEOF_CK_ATTRIBUTE_32 = 12 := rfl
  rw [attributeArrayUnflatten, hread, if_neg (by omega), h12]
  dsimp only
  rw [if_neg (by simp [h]), if_neg (by omega), Nat.add_sub_cancel_left]

end

/-- The loop over an array returns what was written, and leaves the pointer behind it. -/
theorem attributeArrayLoop_eq (hfit : AllFit o as) (hbytes : attributesFlatten o as = some bytes)
    (hstands : Stands data ptr bytes) (hofs : ofs + bytes.length = ulValueLen)
    (hbuf : bytes.length ≤ bufLen) :
    attributeArrayLoop o data ulValueLen ofs ptr bufLen = .ok (as, ptr + bytes.length) := by
  induction as using attributes_induction generalizing bytes ulValueLen ofs ptr bufLen with
  | hnil =>
    cases hbytes
    rw [attributeArrayLoop, if_neg (by rw [← hofs]; simp)]
    rfl
  | hplain type value h as ih =>
    obtain ⟨val, hstored, -⟩ := exists_storedAs hfit.1
    obtain ⟨rest, hrest, -⟩ := attributesFlatten_eq as hfit.2
    simp only [attributesFlatten, attributeFlatten, hstored.flatten, hrest, bind_eq_bind,
      bind_some, Option.some.injEq] at hbytes
    subst hbytes
    rw [append_assoc] at hstands hofs hbuf ⊢
    obtain ⟨hread, hbody⟩ := hstands.attribute32 hfit.1.1 hstored.short
    obtain ⟨hval, hnext⟩ := stands_append.mp hbody
    simp only [length_append, length_attribute32Bytes] at hofs hbuf ⊢
    rw [attributeArrayLoop_plain h hread hstored hval (by omega) (by omega),
      ih hfit.2 hrest (by rwa [← add_assoc]) (by omega) (by omega)]
    simp [Except.map, add_assoc]
  | harray type es h as ihes ihas =>
    obtain ⟨body, hes, hshort, harray⟩ := attributeFlatten_array hfit.1
    obtain ⟨rest, hrest, -⟩ := attributesFlatten_eq as hfit.2
    simp only [attributesFlatten, harray, hrest, bind_eq_bind, bind_some,
      Option.some.injEq] at hbytes
    subst hbytes
    rw [append_assoc] at hstands hofs hbuf ⊢
    obtain ⟨hread, hbody⟩ := hstands.attribute32 hfit.1.1 hshort
    obtain ⟨hval, hnext⟩ := stands_append.mp hbody
    simp only [length_append, length_attribute32Bytes] at hofs hbuf ⊢
    -- The inner array is read in full, so both pointers agree behind it.
    have hinner : attributeArrayUnflatten o data ptr (12 + body.length)
        = .ok (es, ptr + (12 + body.length)) := by
      rw [attributeArrayUnflatten_eq h hread,
        ihes hfit.1.2.2 hes hval (zero_add _) le_rfl, add_assoc]
    rw [attributeArrayLoop_array h hread hinner (by omega) (by omega),
      ihas hfit.2 hrest (by rwa [← add_assoc]) (by omega) (by omega)]
    simp [Except.map, add_assoc]

/-! ### Templates -/

/-- A turn of the loop over a template, at an attribute with a value of bytes. -/
theorem templateUnflattenLoop_plain (h : isAttributeAttrArray type = false)
    (hread : readAttribute32 o data ptr = ⟨type, bytes.length⟩)
    (hstored : StoredAs o type value bytes) (hstands : Stands data (ptr + 12) bytes)
    (hend : ptr + (12 + bytes.length) ≤ bufEnd) :
    templateUnflattenLoop o data bufEnd (n + 1) ptr tmpl
      = templateUnflattenLoop o data bufEnd n (ptr + (12 + bytes.length))
          (templateUpdateAttribute tmpl (.plain type value h)) := by
  have hvalue := hstands.plainValue_eq hstored
  have h12 : SIZEOF_CK_ATTRIBUTE_32 = 12 := rfl
  have hneeded : ¬ ptr + (if (flattenUlongAttributeAsUlong32 type && bytes.length ≠ 0) = true then
      SIZEOF_CK_ATTRIBUTE_32 + SIZEOF_CK_ULONG_32
    else SIZEOF_CK_ATTRIBUTE_32 + bytes.length) > bufEnd := by
    have h4 : SIZEOF_CK_ULONG_32 = 4 := rfl
    split
    · rename_i hcond
      obtain ⟨htype, hne⟩ := Bool.and_eq_true_iff.mp hcond
      have hlen := (hstored.word htype).resolve_left (by simpa using hne)
      omega
    · omega
  rw [templateUnflattenLoop, if_neg (by omega)]
  simp only [hread]
  rw [dif_neg (by simp [h]), if_neg hneeded, hvalue, h12]

/-- A turn of the loop over a template, at an array. -/
theorem templateUnflattenLoop_array (h : isAttributeAttrArray type = true)
    (hread : readAttribute32 o data ptr = ⟨type, len⟩)
    (hes : attributeArrayUnflatten o data ptr (12 + len) = .ok (es, ptr + (12 + len)))
    (hend : ptr + (12 + len) ≤ bufEnd) :
    templateUnflattenLoop o data bufEnd (n + 1) ptr tmpl
      = templateUnflattenLoop o data bufEnd n (ptr + (12 + len))
          (templateUpdateAttribute tmpl (.array type es h)) := by
  have h12 : SIZEOF_CK_ATTRIBUTE_32 = 12 := rfl
  rw [templateUnflattenLoop, if_neg (by omega)]
  simp only [hread]
  rw [dif_pos h, h12, if_neg (by omega), hes]
  rfl

/-- The loop over a template puts what was written in front of the template, in reverse. -/
theorem templateUnflattenLoop_eq (hfit : AllFit o as) (hbytes : attributesFlatten o as = some bytes)
    (hstands : Stands data ptr bytes) (hend : ptr + bytes.length ≤ bufEnd)
    (hdistinct : (as.map CkAttribute.type).Nodup)
    (hnew : ∀ a ∈ as, a.type ∉ tmpl.map CkAttribute.type) :
    templateUnflattenLoop o data bufEnd as.length ptr tmpl = .ok (as.reverse ++ tmpl) := by
  induction as generalizing bytes ptr tmpl with
  | nil => rfl
  | cons a as ih =>
    obtain ⟨rest, hrest, -⟩ := attributesFlatten_eq as hfit.2
    rw [map_cons, List.nodup_cons] at hdistinct
    -- An attribute of a new type is put in front.
    have hupdate : templateUpdateAttribute tmpl a = a :: tmpl := by
      rw [templateUpdateAttribute, List.eraseP_of_forall_not]
      intro b hb heq
      exact (hnew a List.mem_cons_self) (List.mem_map.mpr ⟨b, hb, by simpa using heq⟩)
    have hnew' : ∀ b ∈ as, b.type ∉ (a :: tmpl).map CkAttribute.type := by
      intro b hb hmem
      rw [map_cons, List.mem_cons] at hmem
      rcases hmem with heq | hmem
      · exact hdistinct.1 (heq ▸ List.mem_map_of_mem hb)
      · exact hnew b (List.mem_cons_of_mem _ hb) hmem
    have hlast : (a :: as).reverse ++ tmpl = as.reverse ++ (a :: tmpl) := by simp
    rw [hlast, List.length_cons]
    cases a with
    | plain type value h =>
      obtain ⟨val, hstored, -⟩ := exists_storedAs hfit.1
      simp only [attributesFlatten, attributeFlatten, hstored.flatten, hrest, bind_eq_bind,
        bind_some, Option.some.injEq] at hbytes
      subst hbytes
      rw [append_assoc] at hstands hend
      obtain ⟨hread, hbody⟩ := hstands.attribute32 hfit.1.1 hstored.short
      obtain ⟨hval, hnext⟩ := stands_append.mp hbody
      simp only [length_append, length_attribute32Bytes] at hend
      rw [templateUnflattenLoop_plain h hread hstored hval (by omega), hupdate]
      exact ih hfit.2 hrest (by rwa [← add_assoc]) (by omega) hdistinct.2 hnew'
    | array type es h =>
      obtain ⟨body, hes, hshort, harray⟩ := attributeFlatten_array hfit.1
      simp only [attributesFlatten, harray, hrest, bind_eq_bind, bind_some,
        Option.some.injEq] at hbytes
      subst hbytes
      rw [append_assoc] at hstands hend
      obtain ⟨hread, hbody⟩ := hstands.attribute32 hfit.1.1 hshort
      obtain ⟨hval, hnext⟩ := stands_append.mp hbody
      simp only [length_append, length_attribute32Bytes] at hend
      have hinner : attributeArrayUnflatten o data ptr (12 + body.length)
          = .ok (es, ptr + (12 + body.length)) := by
        rw [attributeArrayUnflatten_eq h hread, attributeArrayLoop_eq es hfit.1.2.2 hes hval
          (zero_add _) le_rfl, add_assoc]
      rw [templateUnflattenLoop_array h hread hinner (by omega), hupdate]
      exact ih hfit.2 hrest (by rwa [← add_assoc]) (by omega) hdistinct.2 hnew'

/-! ### Objects -/

/-- A header of 16 bytes and the attributes. -/
theorem length_objectBytes (o : ByteOrder) (obj : CkObject) (body : List UInt8) :
    (objectBytes o obj body).length = 16 + body.length := by
  simp [objectBytes]
  omega

/-- `object_flatten` writes as many bytes as it allocates and reports. -/
theorem objectFlatten_eq (h : Storable o obj) :
    ∃ body, attributesFlatten o obj.template = some body ∧
      objectFlatten o obj = some (objectBytes o obj body, (objectBytes o obj body).length) := by
  obtain ⟨body, hbody, hlen⟩ := attributesFlatten_eq obj.template h.fits
  have htotal : attributesGetCompressedSize obj.template + 4 + 4 + 8
      = (objectBytes o obj body).length := by
    rw [length_objectBytes, hlen]
    omega
  refine ⟨body, hbody, ?_⟩
  simp only [objectFlatten, hbody, htotal, bind_eq_bind, bind_some, le_refl,
    if_true, Nat.sub_self, List.replicate_zero, List.append_nil]

/-- The name comes back from its bytes. -/
theorem Stands.name_eq {name : Vector UInt8 8} (h : Stands data ptr name.toList) :
    (Vector.ofFn fun i : Fin 8 => data (ptr + i)) = name := by
  rw [Stands, Vector.length_toList] at h
  apply Vector.ext
  intro i hi
  have hlen : i < (data.read ptr 8).length := by simpa using hi
  have hget := Buf.getElem_read hlen
  rw [Vector.getElem_ofFn, ← hget]
  simp only [h, Vector.getElem_toList]

/-- The bytes of a stored object are restored, whatever follows them. The template is in reverse
order. -/
theorem restore_objectBytes (h : Storable o obj)
    (hbody : attributesFlatten o obj.template = some body) {dataSize : Nat}
    {fname : Option (List UInt8)} (replace : Option CkObject)
    (hstands : Stands data 0 (objectBytes o obj body))
    (hsize : (objectBytes o obj body).length ≤ dataSize) (hname : nameMatches obj.name fname) :
    objectRestoreWithSize o data dataSize fname replace =
      .ok { replace.getD obj with template := obj.template.reverse } := by
  obtain ⟨hcls, hcount, hnameAt, hbodyAt⟩ : Stands data 0 (wordBytes o 4 obj.cls) ∧
      Stands data 4 (wordBytes o 4 obj.template.length) ∧ Stands data 8 obj.name.toList ∧
      Stands data 16 body := by
    obtain ⟨hhead, hbody⟩ := stands_append.mp hstands
    obtain ⟨hwords, hname⟩ := stands_append.mp hhead
    obtain ⟨hcls, hcount⟩ := stands_append.mp hwords
    simp only [length_append, length_wordBytes, Vector.length_toList, zero_add]
      at hbody hname hcount
    exact ⟨hcls, hcount, hname, hbody⟩
  rw [length_objectBytes] at hsize
  have htmpl : templateUnflattenWithSize o data 16 obj.template.length (dataSize - 16)
      = .ok obj.template.reverse := by
    rw [templateUnflattenWithSize, templateUnflattenLoop_eq obj.template h.fits hbody hbodyAt
      (by omega) h.distinct (by simp), List.append_nil]
  rw [objectRestoreWithSize, if_neg (by omega)]
  simp only [hcls.wordValue_eq h.cls, hcount.wordValue_eq h.count, hnameAt.name_eq, hname,
    if_true, htmpl]
  cases replace <;> rfl

/-- A stored object is restored from its bytes, whatever follows them. -/
theorem object_round_trip {o : ByteOrder} {obj : CkObject} (h : Storable o obj) :
    ∃ body, attributesFlatten o obj.template = some body ∧
      objectFlatten o obj = some (objectBytes o obj body, (objectBytes o obj body).length) ∧
      ∀ data dataSize fname, Stands data 0 (objectBytes o obj body) →
        (objectBytes o obj body).length ≤ dataSize → nameMatches obj.name fname →
        ∃ obj', objectRestoreWithSize o data dataSize fname none = .ok obj' ∧
          obj'.cls = obj.cls ∧ obj'.name = obj.name ∧ obj'.template.Perm obj.template := by
  obtain ⟨body, hbody, hflatten⟩ := objectFlatten_eq h
  refine ⟨body, hbody, hflatten, fun data dataSize fname hstands hsize hname => ?_⟩
  exact ⟨{ obj with template := obj.template.reverse },
    restore_objectBytes h hbody none hstands hsize hname, rfl, rfl, obj.template.reverse_perm⟩

/-- A secret key with a nested array: the template for unwrapped keys has a template for keys that
are derived from them. -/
def nestedObject : CkObject where
  cls := 4
  name := #v[79, 66, 74, 48, 48, 48, 48, 49]
  template :=
    [.plain CKA_CLASS (wordBytes .big 8 4) rfl, .plain CKA_VALUE_LEN [] rfl,
      .array CKA_UNWRAP_TEMPLATE
        [.plain CKA_KEY_TYPE (wordBytes .big 8 31) rfl,
          .array CKA_DERIVE_TEMPLATE [.plain 0x103 [1] rfl] rfl,
            .array CKA_WRAP_TEMPLATE [] rfl] rfl]

/-- An object with an array of attributes. -/
theorem nestedObject_round_trip :
    ∃ body, objectFlatten .big nestedObject
        = some (objectBytes .big nestedObject body, (objectBytes .big nestedObject body).length) ∧
      ∃ obj', objectRestoreWithSize .big
          (Buf.write (fun _ => 7) 0 (objectBytes .big nestedObject body))
          ((objectBytes .big nestedObject body).length + 5) none none = .ok obj' ∧
        obj'.template.Perm nestedObject.template := by
  have hstorable : Storable .big nestedObject := by
    refine ⟨by decide, by decide, by decide, ⟨by decide, by decide, fun _ => .inr ?_⟩,
      ⟨by decide, by decide, fun _ => .inl rfl⟩, ⟨by decide, by decide,
        ⟨by decide, by decide, fun _ => .inr ?_⟩, ⟨by decide, by decide,
          ⟨by decide, by decide, fun h => ?_⟩, trivial⟩, ⟨by decide, by decide, trivial⟩, trivial⟩,
      trivial⟩
    · decide
    · decide
    · exact absurd h (by decide)
  obtain ⟨body, -, hflatten, hrestore⟩ := object_round_trip hstorable
  have hstands := Buf.read_write_append (fun _ => 7) 0 (objectBytes .big nestedObject body)
  rw [zero_add, Buf.read_zero, List.nil_append] at hstands
  obtain ⟨obj', hobj, -, -, hperm⟩ := hrestore _ _ none hstands (Nat.le_add_right _ 5) rfl
  exact ⟨body, hflatten, obj', hobj, hperm⟩

end OpenCryptoki.Proofs.Common
