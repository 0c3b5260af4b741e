import Mathlib.Data.List.TakeWhile
import OpenCryptoki.Proofs.Common.ObjectStoreKeys
import OpenCryptoki.Proofs.Common.Unflatten

/-!
# `OpenCryptoki.Proofs.Common.ObjectStore`: saved objects can be loaded back

The three readers of an object file find the flattened bytes again, up to the length that the file
has for them (`reload_publicFile`, `reload_privateFile`, `load_publicFile`, `load_privateFile`).
That length has 32 bits, and the readers refuse a length of 2^31 or more.

* `saved_object_loads_back_iff`: an object can be loaded back whenever it was saved, and saving it
  stays inside of its buffers, exactly if the object can be stored at all (`Storable`), its name is
  a file name and its flattened form has less than 2^31 bytes; or if saving it always fails.
* `large_object_not_loaded`: a data object of 2^31 bytes, which is saved and then refused.
* `intact_objects_load_iff`: a damaged file does not hide other objects, unless it is a private one
  that cannot be restored. That ends `load_private_token_objects`.
-/

set_option autoImplicit false

namespace OpenCryptoki.Proofs.Common

open Lib OpenCryptoki.Common
open List (append_assoc length_append append_nil)

/-! ### Names -/

/-- The bytes of a file name. -/
def ValidName (name : Vector UInt8 8) : Prop := ∀ b ∈ name.toList, b ≠ 0 ∧ b ≠ 47

/-- There is no element behind a slash that is not there. -/
theorem lastPathElement_eq_none {cs : List UInt8} : lastPathElement cs = none ↔ 47 ∉ cs := by
  induction cs with
  | nil => simp [lastPathElement]
  | cons c cs ih =>
    rw [lastPathElement]
    cases hcs : lastPathElement cs with
    | some e =>
      have hmem : 47 ∈ cs := by
        by_contra hnot
        rw [ih.mpr hnot] at hcs
        cases hcs
      simp [hmem]
    | none =>
      have hnot := ih.mp hcs
      by_cases hc : c = 47
      · simp [hc]
      · simp [hc, hnot, Ne.symm hc]

/-- The last element is shorter than the path. -/
theorem length_lastPathElement {cs e : List UInt8} (h : lastPathElement cs = some e) :
    e.length < cs.length := by
  induction cs with
  | nil => cases h
  | cons c cs ih =>
    rw [lastPathElement] at h
    cases hcs : lastPathElement cs with
    | some e' =>
      rw [hcs] at h
      cases h
      exact Nat.lt_succ_of_lt (ih hcs)
    | none =>
      simp only [hcs] at h
      split at h
      · cases h
        exact Nat.lt_succ_self _
      · cases h

/-- The last element of a path in a directory: the file name, or a part of it if it has a slash. -/
theorem lastPathElement_append (dir file : List UInt8) :
    ∃ e, lastPathElement (dir ++ 47 :: file) = some e ∧
      (47 ∉ file → e = file) ∧ (47 ∈ file → e.length < file.length) := by
  induction dir with
  | nil =>
    rw [List.nil_append, lastPathElement]
    cases hfile : lastPathElement file with
    | none => exact ⟨file, by simp, fun _ => rfl,
      fun h => absurd h (lastPathElement_eq_none.mp hfile)⟩
    | some e =>
      refine ⟨e, rfl, fun h => ?_, fun _ => length_lastPathElement hfile⟩
      rw [lastPathElement_eq_none.mpr h] at hfile
      cases hfile
  | cons d dir ih =>
    obtain ⟨e, he, h⟩ := ih
    refine ⟨e, ?_, h⟩
    rw [List.cons_append, lastPathElement, he]

/-- The file of an object has its name exactly if the name is a file name. -/
theorem nameMatches_objectPath (dir : List UInt8) (name : Vector UInt8 8) :
    nameMatches name (some (objectPath dir name)) = true ↔ ValidName name := by
  have hlen : name.toList.length = 8 := by simp
  obtain ⟨e, he, hsame, hshort⟩ := lastPathElement_append dir (fileName name)
  have hle : (fileName name).length ≤ 8 := hlen ▸ (List.takeWhile_sublist _).length_le
  rw [nameMatches, objectPath, he]
  simp only [Bool.and_eq_true, decide_eq_true_eq]
  constructor
  · rintro ⟨h8, hname⟩
    have h47 : 47 ∉ fileName name := fun hmem => by
      have := hshort hmem
      omega
    have hfile : fileName name = name.toList := (hsame h47).symm.trans hname.symm
    intro b hb
    refine ⟨?_, fun hb47 => ?_⟩
    · have hall := List.takeWhile_eq_self_iff.mp hfile b hb
      simpa using hall
    · rw [hfile] at h47
      exact h47 (hb47 ▸ hb)
  · intro hvalid
    have hfile : fileName name = name.toList :=
      List.takeWhile_eq_self_iff.mpr fun b hb => by simpa using (hvalid b hb).1
    have h47 : 47 ∉ fileName name := fun hmem => (hvalid 47 (hfile ▸ hmem)).2 rfl
    have hname : e = name.toList := (hsame h47).trans hfile
    rw [hname]
    exact ⟨hlen, rfl⟩

/-! ### Flattened objects -/

/-- The size that `object_flatten` reports. -/
def objectSize (obj : CkObject) : Nat := attributesGetCompressedSize obj.template + 16

section
variable {o : ByteOrder} {obj : CkObject} {body : List UInt8}
  (h : attributesFlatten o obj.template = some body)
include h

/-- The bytes of an object have its size. -/
theorem length_objectBytes_eq : (objectBytes o obj body).length = objectSize obj := by
  rw [length_objectBytes, length_attributesFlatten _ _ h, objectSize, add_comm]

/-- An object is flattened to its bytes. -/
theorem objectFlatten_of_body :
    objectFlatten o obj = some (objectBytes o obj body, objectSize obj) := by
  have hlen := length_objectBytes_eq h
  have htotal : attributesGetCompressedSize obj.template + 4 + 4 + 8 = objectSize obj := rfl
  simp only [objectFlatten, h, htotal, hlen, Option.bind_eq_bind, Option.bind_some, le_refl,
    if_true, Nat.sub_self, List.replicate_zero, append_nil]

end

/-- An object is flattened without a fault exactly if its values are readable. -/
theorem objectFlatten_cases (o : ByteOrder) (obj : CkObject) :
    (¬ ReadableAttrs obj.template ∧ objectFlatten o obj = none) ∨
      ReadableAttrs obj.template ∧ ∃ body, attributesFlatten o obj.template = some body ∧
        objectFlatten o obj = some (objectBytes o obj body, objectSize obj) := by
  cases hbody : attributesFlatten o obj.template with
  | none =>
    refine .inl ⟨fun h => ?_, by simp [objectFlatten, hbody]⟩
    have hsome := (attributesFlatten_isSome_iff o obj.template).mpr h
    rw [hbody] at hsome
    cases hsome
  | some body =>
    refine .inr ⟨(attributesFlatten_isSome_iff o obj.template).mp (by rw [hbody]; rfl), body, rfl,
      objectFlatten_of_body hbody⟩

/-- The bytes stand at the start of their buffer. -/
theorem stands_bufferOf (bytes : List UInt8) : Stands (bufferOf bytes) 0 bytes := by
  apply List.ext_getElem
  · rw [Buf.length_read]
  · intro i h₁ h₂
    rw [Buf.getElem_read h₁, zero_add, bufferOf, List.getD_eq_getElem _ _ h₂]

/-- What is known of an object that was restored from the first bytes of a flattened object. -/
theorem restore_take_ok {o : ByteOrder} {obj obj' : CkObject} {body path : List UInt8} {n : Nat}
    {replace : Option CkObject} (hn : n < 2 ^ 31)
    (h : objectRestoreWithSize o (bufferOf ((objectBytes o obj body).take n)) n (some path)
      replace = .ok obj') :
    nameMatches obj.name (some path) = true ∧ 16 ≤ n ∧
      TemplateRead o (2 * (n - 16)) obj'.template ∧ (replace = none → obj'.cls < 2 ^ 32) := by
  rw [objectRestoreWithSize] at h
  obtain ⟨hsize, h⟩ := ite_error_left_eq_ok.mp h
  have hn16 : 16 ≤ n := by omega
  -- the name is among the bytes that are left
  have hname : (Vector.ofFn fun i : Fin 8 =>
      bufferOf ((objectBytes o obj body).take n) (8 + i)) = obj.name := by
    have hstands := stands_bufferOf ((objectBytes o obj body).take n)
    have hsplit : (objectBytes o obj body).take n =
        (wordBytes o 4 obj.cls ++ wordBytes o 4 obj.template.length) ++
          (obj.name.toList ++ body.take (n - 16)) := by
      rw [objectBytes, List.take_append, List.take_of_length_le (by simp; omega)]
      simp
    rw [hsplit] at hstands ⊢
    have hat := (stands_append.mp hstands).2
    simp only [length_append, length_wordBytes, zero_add] at hat
    exact (stands_append.mp hat).1.name_eq
  simp only [hname] at h
  obtain ⟨hmatch, h⟩ := ite_error_right_eq_ok.mp h
  obtain ⟨tmpl, htmpl, h⟩ := bind_eq_ok.mp h
  have hread := templateUnflatten_fits (by omega) htmpl
  cases replace with
  | none =>
    cases h
    refine ⟨hmatch, hn16, hread, fun _ => ?_⟩
    have := wordValue_lt o ((bufferOf ((objectBytes o obj body).take n)).read 0 4)
    rwa [Buf.length_read] at this
  | some old =>
    cases h
    exact ⟨hmatch, hn16, hread, fun hnone => by cases hnone⟩

/-! ### Files -/

variable {c : StoreCrypto} {masterKey : Aes256Key} {o v : ByteOrder}

/-- A size of two bytes is larger in the other order. -/
theorem lt_wordValue_big {len : Nat} (hpos : len ≠ 0) (hlen : len < 2 ^ 16) :
    len < wordValue .big (wordBytes .little 4 len) := by
  have hvalue : wordValue .big (wordBytes .little 4 len) =
      len % 256 * 2 ^ 24 + len / 256 * 2 ^ 16 := by
    have hhigh : len / 256 / 256 = 0 := by omega
    have hlow : len / 256 % 256 = len / 256 := Nat.mod_eq_of_lt (by omega)
    simp [wordValue, wordBytes, leBytes, leValue, hhigh, hlow]
    omega
  omega

/-- The file of a public object with the flattened bytes `plain`. -/
def PublicFile (v : ByteOrder) (plain file : List UInt8) : Prop :=
  file = publicHeader v plain.length ++ plain

/-- The file of a private object with the flattened bytes `plain`. -/
structure PrivateFile (c : StoreCrypto) (masterKey : Aes256Key) (v : ByteOrder) (k : ObjKey)
    (plain file : List UInt8) : Prop where
  wrapped : c.aes256Unwrap masterKey k.wrapped = .ok k.key
  length_wrapped : k.wrapped.length = 40
  length_iv : k.iv.length = 12
  file : file = privateHeader v k plain.length ++
    ((c.aes256GcmSeal k.key k.iv (privateHeader v k plain.length) plain).1 ++
      (c.aes256GcmSeal k.key k.iv (privateHeader v k plain.length) plain).2)

/-- The size in a header is read in the byte order in which it was written: the version cannot be
taken for one in the order of the machine. -/
theorem headerSize_eq {file : List UInt8} {off len : Nat} (hv : v = .big ∨ v = o)
    (hver : slice file 0 4 = wordBytes v 4 TOK_NEW_DATA_STORE)
    (hsize : slice file off 4 = wordBytes v 4 len) (hlen : len < 2 ^ 32) :
    headerSize o file off = len := by
  have hvalue : wordValue v (wordBytes v 4 len) = len := wordValue_wordBytes_of_lt hlen
  rw [headerSize, hver, hsize]
  rcases hv with rfl | rfl
  · cases o with
    | little => rw [if_neg (by decide), hvalue]
    | big => rw [hvalue, ite_self]
  · rw [if_pos (wordValue_wordBytes_of_lt (by decide)), hvalue]

section Public

variable {plain file : List UInt8} (h : PublicFile v plain file) (hv : v = .big ∨ v = o)
  (hlen : plain.length < 2 ^ 32)

include h

/-- A public file is a header and the bytes. -/
theorem PublicFile.length : file.length = PUB_HEADER_LEN + plain.length := by
  rw [h]
  simp only [publicHeader, PUB_HEADER_LEN, length_append, length_wordBytes,
    List.length_replicate, List.length_cons, List.length_nil]

/-- A public file says that it is public. -/
theorem PublicFile.flag : file.getD 4 0 = 0 := by
  rw [h, publicHeader, append_assoc, append_assoc, append_assoc,
    List.getD_append_right _ _ _ _ (by simp)]
  simp

/-- The bytes behind the header. -/
theorem PublicFile.body : slice file PUB_HEADER_LEN plain.length = plain := by
  have hsplit : file = publicHeader v plain.length ++ (plain ++ []) := by rw [append_nil, h]
  rw [hsplit]
  exact slice_append_middle (by simp [publicHeader, PUB_HEADER_LEN]) rfl

include hv hlen

/-- The size in the header. -/
theorem PublicFile.size : headerSize o file 12 = plain.length := by
  refine headerSize_eq hv ?_ ?_ hlen
  · have hsplit : file = [] ++ (wordBytes v 4 TOK_NEW_DATA_STORE ++
        ([0] ++ List.replicate 7 0 ++ wordBytes v 4 plain.length ++ plain)) := by
      rw [h]
      simp only [publicHeader, append_assoc, List.nil_append]
    rw [hsplit]
    exact slice_append_middle rfl (by simp)
  · have hsplit : file = (wordBytes v 4 TOK_NEW_DATA_STORE ++ [0] ++ List.replicate 7 0) ++
        (wordBytes v 4 plain.length ++ plain) := by
      rw [h]
      simp only [publicHeader, append_assoc]
    rw [hsplit]
    exact slice_append_middle (by simp) (by simp)

end Public

section Private

variable {k : ObjKey} {plain file : List UInt8} (h : PrivateFile c masterKey v k plain file)

include h

/-- The header of a private file has its fixed length. -/
theorem PrivateFile.length_header : (privateHeader v k plain.length).length = HEADER_LEN :=
  length_privateHeader plain.length h.length_wrapped h.length_iv

/-- A private file is a header, the sealed bytes and a footer. -/
theorem PrivateFile.length : file.length = HEADER_LEN + plain.length + FOOTER_LEN := by
  obtain ⟨hcipher, htag⟩ := c.length_seal k.key k.iv (privateHeader v k plain.length) plain
  rw [h.file, length_append, length_append, h.length_header, hcipher, htag, add_assoc]

/-- A private file says that it is private. -/
theorem PrivateFile.flag : file.getD 4 0 = 1 := by
  rw [h.file, privateHeader]
  simp only [append_assoc]
  rw [List.getD_append_right _ _ _ _ (by simp)]
  simp

/-- The header in front of the file. -/
theorem PrivateFile.header : file.take HEADER_LEN = privateHeader v k plain.length := by
  rw [h.file, List.take_left' h.length_header]

/-- The sealed bytes behind the header. -/
theorem PrivateFile.body : slice file HEADER_LEN plain.length =
    (c.aes256GcmSeal k.key k.iv (privateHeader v k plain.length) plain).1 := by
  rw [h.file]
  exact slice_append_middle h.length_header (c.length_seal _ _ _ _).1

/-- The tag behind the sealed bytes. -/
theorem PrivateFile.footer : slice file (HEADER_LEN + plain.length) FOOTER_LEN =
    (c.aes256GcmSeal k.key k.iv (privateHeader v k plain.length) plain).2 := by
  obtain ⟨hcipher, htag⟩ := c.length_seal k.key k.iv (privateHeader v k plain.length) plain
  have hsplit : file = (privateHeader v k plain.length ++
      (c.aes256GcmSeal k.key k.iv (privateHeader v k plain.length) plain).1) ++
      ((c.aes256GcmSeal k.key k.iv (privateHeader v k plain.length) plain).2 ++ []) := by
    rw [h.file, append_nil, append_assoc]
  rw [hsplit]
  exact slice_append_middle (by rw [length_append, h.length_header, hcipher]) htag

/-- The seal is opened again. -/
theorem PrivateFile.restore (old : Option CkObject) (path : List UInt8) :
    restorePrivateTokenObject c masterKey o (file.take HEADER_LEN)
        (slice file HEADER_LEN plain.length) (slice file (HEADER_LEN + plain.length) FOOTER_LEN)
        old path =
      objectRestoreWithSize o (bufferOf plain) plain.length (some path) old := by
  have hwrapped := slice_privateHeader_wrapped (v := v) plain.length [] h.length_wrapped
  have hiv := slice_privateHeader_iv (v := v) plain.length [] h.length_wrapped h.length_iv
  rw [append_nil] at hwrapped hiv
  have hcipher := (c.length_seal k.key k.iv (privateHeader v k plain.length) plain).1
  rw [h.header, h.body, h.footer, restorePrivateTokenObject, hwrapped, h.wrapped]
  dsimp only
  rw [hiv, c.unseal_seal]
  rw [hcipher]

/-- The version and the size in the header. -/
theorem PrivateFile.sizeBytes : slice file 0 4 = wordBytes v 4 TOK_NEW_DATA_STORE ∧
    slice file 60 4 = wordBytes v 4 plain.length := by
  obtain ⟨rest, hrest⟩ : ∃ rest, file = privateHeader v k plain.length ++ rest := ⟨_, h.file⟩
  constructor
  · have hsplit : file = [] ++ (wordBytes v 4 TOK_NEW_DATA_STORE ++
        ([1] ++ [0, 0, 0] ++ k.wrapped ++ k.iv ++ wordBytes v 4 plain.length ++ rest)) := by
      rw [hrest]
      simp only [privateHeader, append_assoc, List.nil_append]
    rw [hsplit]
    exact slice_append_middle rfl (by simp)
  · have hsplit : file = (wordBytes v 4 TOK_NEW_DATA_STORE ++ [1] ++ [0, 0, 0] ++ k.wrapped ++
        k.iv) ++ (wordBytes v 4 plain.length ++ rest) := by
      rw [hrest]
      simp only [privateHeader, append_assoc]
    rw [hsplit]
    exact slice_append_middle (by simp [h.length_wrapped, h.length_iv]) (by simp)

end Private

/-- What a reader of a file with `n` flattened bytes does. -/
def readBack (o : ByteOrder) (dir : List UInt8) (name : Vector UInt8 8) (plain : List UInt8)
    (old : Option CkObject) : Except CkRv CkObject :=
  if plain.length = 0 ∨ OCK_MAX_TOKEN_OBJ_SIZE ≤ plain.length then .error .functionFailed
  else
    objectRestoreWithSize o (bufferOf plain) plain.length (some (objectPath dir name)) old

section Readers

variable {dir : List UInt8} {files : ObjectFiles} {obj : CkObject} {plain file : List UInt8}
  (hfile : files (fileName obj.name) = some file) (hlen : plain.length < 2 ^ 32)

include hfile hlen

/-- A public file is reloaded from its bytes. -/
theorem reload_publicFile (h : PublicFile v plain file) (hv : v = .big ∨ v = o) :
    reloadTokenObject c masterKey dir o files obj = readBack o dir obj.name plain (some obj) := by
  have hflen := h.length
  rw [reloadTokenObject, hfile]
  dsimp only
  have hcommon : HEADER_COMMON_LEN ≤ PUB_HEADER_LEN := by decide
  rw [h.size hv hlen, h.flag, h.body, if_neg (by omega), if_neg (by simp), if_neg (by omega),
    readBack]
  split
  · rfl
  · rw [if_neg (by omega)]

/-- A private file is reloaded from its unsealed bytes. -/
theorem reload_privateFile {k : ObjKey} (h : PrivateFile c masterKey v k plain file)
    (hv : v = .big ∨ v = o) :
    reloadTokenObject c masterKey dir o files obj = readBack o dir obj.name plain (some obj) := by
  have hflen := h.length
  have hsize : headerSize o file 60 = plain.length :=
    headerSize_eq hv h.sizeBytes.1 h.sizeBytes.2 hlen
  rw [reloadTokenObject, hfile]
  dsimp only
  have hcommon : HEADER_COMMON_LEN ≤ HEADER_LEN := by decide
  rw [hsize, h.flag, if_neg (by omega), if_pos (by decide), if_neg (by omega), readBack]
  split
  · rfl
  · rw [if_neg (by omega), h.restore]

/-- A public file is loaded from its bytes. -/
theorem load_publicFile (h : PublicFile v plain file) (hv : v = .big ∨ v = o) :
    loadPublicTokenObject dir o files obj.name = (readBack o dir obj.name plain none).toOption := by
  have hflen := h.length
  rw [loadPublicTokenObject, hfile]
  dsimp only
  rw [h.size hv hlen, h.flag, h.body, if_neg (by rw [hflen]; simp), readBack]
  by_cases hmax : OCK_MAX_TOKEN_OBJ_SIZE ≤ plain.length
  · rw [if_pos hmax, if_pos (.inr hmax)]
    rfl
  · rw [if_neg hmax]
    by_cases hzero : plain.length = 0
    · rw [if_pos (.inl hzero), if_pos (.inl hzero)]
      rfl
    · rw [if_neg (by omega), if_neg (by omega)]
      cases objectRestoreWithSize o (bufferOf plain) plain.length (some (objectPath dir obj.name))
        none <;> rfl

omit hlen in
/-- `load_private_token_objects` reads the size in big-endian order. -/
theorem load_privateFile {k : ObjKey} (h : PrivateFile c masterKey v k plain file)
    (hbig : wordValue .big (wordBytes v 4 plain.length) = plain.length)
    (hsmall : plain.length ≠ 0 ∧ plain.length < OCK_MAX_TOKEN_OBJ_SIZE) :
    loadPrivateTokenObject c masterKey dir o files obj.name =
      (readBack o dir obj.name plain none).map some := by
  have hflen := h.length
  have hsize : wordValue .big (slice file 60 4) = plain.length := by
    rw [h.sizeBytes.2, hbig]
  rw [loadPrivateTokenObject, hfile]
  dsimp only
  rw [hsize, h.flag, if_neg (by rw [hflen]; simp; omega), if_neg (by omega), if_neg (by omega),
    h.restore, readBack, if_neg (by omega)]

omit hlen in
/-- The size of a small object in little-endian order is not in the file for a big-endian reader. -/
theorem load_privateFile_little {k : ObjKey} (h : PrivateFile c masterKey .little k plain file)
    (hsmall : plain.length ≠ 0 ∧ plain.length < 2 ^ 16) :
    loadPrivateTokenObject c masterKey dir o files obj.name = .ok none := by
  have hflen := h.length
  have hsize := lt_wordValue_big hsmall.1 hsmall.2
  rw [← h.sizeBytes.2] at hsize
  rw [loadPrivateTokenObject, hfile]
  dsimp only
  rw [h.flag, if_neg (by rw [hflen]; simp; omega)]
  split
  · rfl
  · rw [if_pos (by omega)]

end Readers

/-! ### Files that are cut off -/

section Cut

variable {dir : List UInt8} {files : ObjectFiles} {obj : CkObject} {plain file : List UInt8}
  {n : Nat}
  (hfile : files (fileName obj.name) = some (file.take n)) (hlen : plain.length < 2 ^ 32)

/-- A byte of the part that is left. -/
theorem getD_take {i : Nat} (h : i < n) : (file.take n).getD i 0 = file.getD i 0 := by
  rw [List.getD_eq_getElem?_getD, List.getD_eq_getElem?_getD, List.getElem?_take_of_lt h]

/-- The header of the part that is left. -/
theorem headerSize_take {off : Nat} (hn : 4 ≤ n) (hoff : off + 4 ≤ n) :
    headerSize o (file.take n) off = headerSize o file off := by
  rw [headerSize, slice_take (by omega), slice_take hoff, headerSize]

include hfile hlen

/-- A public file that is cut off is refused. -/
theorem reload_publicFile_cut (h : PublicFile v plain file) (hv : v = .big ∨ v = o)
    (hn : n < PUB_HEADER_LEN + plain.length) :
    reloadTokenObject c masterKey dir o files obj = .error .functionFailed := by
  have hflen : (file.take n).length = n := by
    rw [List.length_take, h.length, min_eq_left hn.le]
  have hcommon : HEADER_COMMON_LEN = 5 ∧ PUB_HEADER_LEN = 16 := ⟨rfl, rfl⟩
  rw [reloadTokenObject, hfile]
  dsimp only
  rw [hflen]
  by_cases hshort : n < HEADER_COMMON_LEN
  · rw [if_pos hshort]
  rw [if_neg hshort, getD_take (by omega), h.flag, if_neg (not_not_intro rfl)]
  by_cases hheader : n < PUB_HEADER_LEN
  · rw [if_pos hheader]
  rw [if_neg hheader, headerSize_take (by omega) (by omega), h.size hv hlen]
  split
  · rfl
  · rfl

/-- A private file that is cut off is refused. -/
theorem reload_privateFile_cut {k : ObjKey} (h : PrivateFile c masterKey v k plain file)
    (hv : v = .big ∨ v = o) (hn : n < HEADER_LEN + plain.length + FOOTER_LEN) :
    reloadTokenObject c masterKey dir o files obj = .error .functionFailed := by
  have hflen : (file.take n).length = n := by
    rw [List.length_take, h.length, min_eq_left hn.le]
  have hsize : headerSize o file 60 = plain.length :=
    headerSize_eq hv h.sizeBytes.1 h.sizeBytes.2 hlen
  have hcommon : HEADER_COMMON_LEN = 5 ∧ HEADER_LEN = 64 := ⟨rfl, rfl⟩
  rw [reloadTokenObject, hfile]
  dsimp only
  rw [hflen]
  by_cases hshort : n < HEADER_COMMON_LEN
  · rw [if_pos hshort]
  rw [if_neg hshort, getD_take (by omega), h.flag, if_pos (by decide)]
  by_cases hheader : n < HEADER_LEN
  · rw [if_pos hheader]
  rw [if_neg hheader, headerSize_take (by omega) (by omega), hsize]
  split
  · rfl
  · rfl

end Cut

/-! ### Saves -/

/-- The bytes that get into the file: as many as the low 32 bits of the size. -/
def storedBytes (o : ByteOrder) (obj : CkObject) (body : List UInt8) : List UInt8 :=
  (objectBytes o obj body).take (len32 (objectSize obj))

/-- What is stored is the size in 32 bits. -/
theorem length_storedBytes {obj : CkObject} {body : List UInt8}
    (h : attributesFlatten o obj.template = some body) :
    (storedBytes o obj body).length = len32 (objectSize obj) := by
  rw [storedBytes, List.length_take, length_objectBytes_eq h]
  exact min_eq_left (Nat.mod_le _ _)

/-- A size in 32 bits. -/
theorem len32_lt (len : Nat) : len32 len < 2 ^ 32 := Nat.mod_lt _ (by decide)

/-- The file of an object. -/
def ObjectFile (c : StoreCrypto) (masterKey : Aes256Key) (o v : ByteOrder) (obj : CkObject)
    (body file : List UInt8) : Prop :=
  if objectIsPrivate obj = 1 then ∃ k, PrivateFile c masterKey v k (storedBytes o obj body) file
  else PublicFile v (storedBytes o obj body) file

/-- What a successful save has written. -/
def SavedAs (c : StoreCrypto) (masterKey : Aes256Key) (o : ByteOrder) (fclose : Option Nat)
    (obj : CkObject) (body : List UInt8) (new : ObjectFiles) : Prop :=
  ∃ file, new (fileName obj.name) = some (closedFile fclose file) ∧
    ObjectFile c masterKey o .big obj body file

/-- The size of the file of an object. -/
def fileSize (obj : CkObject) : Nat :=
  if objectIsPrivate obj = 1 then HEADER_LEN + len32 (objectSize obj) + FOOTER_LEN
  else PUB_HEADER_LEN + len32 (objectSize obj)

/-- The length of the file of an object. -/
theorem ObjectFile.length {obj : CkObject} {body file : List UInt8}
    (h : ObjectFile c masterKey o v obj body file)
    (hbody : attributesFlatten o obj.template = some body) : file.length = fileSize obj := by
  rw [fileSize, ← length_storedBytes hbody]
  rw [ObjectFile] at h
  split at h
  · next hpriv =>
    obtain ⟨k, h⟩ := h
    rw [if_pos hpriv, h.length]
  · next hpub => rw [if_neg hpub, PublicFile.length h]

variable {name : Vector UInt8 8} {p : ObjectFiles → Prop}

/-- A file that was replaced holds what `fclose` left of the data. -/
theorem replaceFile_ok {files new : ObjectFiles} {data : List UInt8} {io : SaveIo}
    (h : replaceFile files name data io = .ok new) :
    new (fileName name) = some (closedFile io.fclose data) := by
  obtain ⟨-, h⟩ := ite_error_left_eq_ok.mp h
  cases hperm : io.perm with
  | some e => simp [hperm] at h
  | none =>
    rw [hperm] at h
    dsimp only at h
    split at h
    · cases h
      exact Function.update_self _ _ _
    · cases h

section
variable {files : ObjectFiles} {io : SaveIo} {totalLen : Nat} {k : ObjKey}

/-- The key of a save can be unwrapped again. -/
theorem objKey_wrapped (h : objKey c masterKey files name totalLen io = .ok k) :
    c.aes256Unwrap masterKey k.wrapped = .ok k.key ∧ k.wrapped.length = 40 ∧ k.iv.length = 12 := by
  rcases objKey_cases h with ⟨-, hnew⟩ | ⟨file, -, hfile⟩
  · refine ⟨?_, ?_, ?_⟩
    · rw [hnew.wrapped, c.unwrap_wrap]
    · rw [hnew.wrapped, c.length_wrap]
    · simp [hnew.iv]
  · have hlen : 64 ≤ file.length := hfile.length
    refine ⟨?_, ?_, ?_⟩
    · rw [hfile.wrapped, hfile.key]
    · rw [hfile.wrapped, length_slice (by omega)]
    · rw [hfile.iv, length_append, List.length_take, length_inc32, length_slice (by omega),
        length_slice (by omega)]
      rfl

/-- A file that was sealed and written. -/
theorem sealAndWrite_file {files new : ObjectFiles} {plain : List UInt8}
    (h : sealAndWrite c files name k plain io = .ok new) :
    plain.length ≤ c.sealMax ∧ new (fileName name) = some (closedFile io.fclose
      (privateHeader .big k plain.length ++
        ((c.aes256GcmSeal k.key k.iv (privateHeader .big k plain.length) plain).1 ++
          (c.aes256GcmSeal k.key k.iv (privateHeader .big k plain.length) plain).2))) := by
  obtain ⟨hmax, h⟩ := ite_error_left_eq_ok.mp h
  refine ⟨not_lt.mp hmax, ?_⟩
  cases hgcm : io.gcm with
  | some e => simp [hgcm] at h
  | none =>
    rw [hgcm] at h
    rw [← append_assoc]
    exact replaceFile_ok h

/-- A new key is made without a fault. -/
theorem newObjKey_ne_fault (name : Vector UInt8 8) (io : SaveIo) :
    newObjKey c masterKey name io ≠ .error .fault := by
  unfold newObjKey
  cases io.wrap with
  | some e | none => exact nofun

/-- The old header fits the buffer. -/
theorem objKey_ne_fault (h : HEADER_LEN ≤ totalLen) :
    objKey c masterKey files name totalLen io ≠ .error .fault := by
  unfold objKey
  split
  · exact newObjKey_ne_fault name io
  · split
    · exact nofun
    · split
      · exact newObjKey_ne_fault name io
      · rw [if_neg (by omega)]
        split
        · unfold oldObjKey
          dsimp only
          split
          · exact newObjKey_ne_fault name io
          · cases io.unwrap with
            | some e => exact nofun
            | none =>
              dsimp only
              split
              all_goals exact nofun
        · exact nofun

/-- A save stays in its buffers, and if it succeeds, its files satisfy `p`. -/
def SaveEnsures (p : ObjectFiles → Prop) (r : SaveResult) : Prop :=
  r.result ≠ .error .fault ∧ (r.result = .ok () → p r.files)

/-- A weaker statement about the files. -/
theorem SaveEnsures.mono {q : ObjectFiles → Prop} {r : SaveResult} (h : SaveEnsures p r)
    (hpq : ∀ files, p files → q files) : SaveEnsures q r :=
  ⟨h.1, fun hok => hpq _ (h.2 hok)⟩

variable {sealing : Option Sealing}

/-- A save that returns an error ensures nothing. -/
theorem SaveEnsures.rc {rc : CkRv} : SaveEnsures p ⟨.error (.rc rc), files, sealing⟩ :=
  ⟨fun h => (by cases h), fun h => (by cases h)⟩

/-- A step of a save that cannot fault has failed. -/
theorem SaveEnsures.error {α : Type} {x : Except Stop α} {e : Stop} (hx : x = .error e)
    (hne : x ≠ .error .fault) :
    SaveEnsures p ⟨.error e, files, sealing⟩ := by
  cases e with
  | fault => exact absurd hx hne
  | rc rc => exact .rc

end

/-- The length of the file does not wrap around. -/
theorem total_mod {n : Nat} (h : HEADER_LEN + len32 n + FOOTER_LEN < 2 ^ 32) :
    (HEADER_LEN + n % 2 ^ 32 + FOOTER_LEN) % 2 ^ 32 = HEADER_LEN + n % 2 ^ 32 + FOOTER_LEN :=
  Nat.mod_eq_of_lt h

section Save

variable {files : ObjectFiles} {obj : CkObject} {io : SaveIo} {body : List UInt8}
  (hbody : attributesFlatten o obj.template = some body)

include hbody

/-- A successful save of a public object has written its file. -/
theorem savePublic_ensures (hpub : objectIsPrivate obj ≠ 1) :
    SaveEnsures (fun new => len32 (objectSize obj) ≠ 0 ∧
      SavedAs c masterKey o io.fclose obj body new)
      (savePublicTokenObject o files obj io) := by
  unfold savePublicTokenObject
  rw [objectFlatten_of_body hbody]
  dsimp only
  split
  · exact .rc
  · split
    · exact .rc
    · rename_i hzero
      cases hwrite : replaceFile files obj.name (publicHeader .big (objectSize obj % 2 ^ 32) ++
          (objectBytes o obj body).take (objectSize obj % 2 ^ 32)) io with
      | error e => exact .error hwrite (replaceFile_ne_fault _ _ _ _)
      | ok new =>
        refine ⟨fun h => (by cases h), fun _ => ⟨hzero, _, replaceFile_ok hwrite, ?_⟩⟩
        rw [ObjectFile, if_neg hpub, PublicFile, length_storedBytes hbody]
        rfl

/-- The size of the file has to fit 32 bits. -/
theorem savePrivate_ensures (hpriv : objectIsPrivate obj = 1)
    (hroom : HEADER_LEN + len32 (objectSize obj) + FOOTER_LEN < 2 ^ 32) :
    SaveEnsures
      (fun new => len32 (objectSize obj) ≤ c.sealMax ∧ SavedAs c masterKey o io.fclose obj body new)
      (savePrivateTokenObject c masterKey o files obj io) := by
  unfold savePrivateTokenObject
  rw [objectFlatten_of_body hbody]
  dsimp only [savePrivateData]
  rw [total_mod hroom]
  split
  · exact .rc
  · cases hkey : objKey c masterKey files obj.name
        (HEADER_LEN + objectSize obj % 2 ^ 32 + FOOTER_LEN) io with
    | error e => exact .error hkey (objKey_ne_fault (by omega))
    | ok k =>
      dsimp only
      rw [if_neg (lt_irrefl _)]
      cases hwrite : sealAndWrite c files obj.name k
          ((objectBytes o obj body).take (objectSize obj % 2 ^ 32)) io with
      | error e => exact .error hwrite (sealAndWrite_ne_fault _ _ _ _ _)
      | ok new =>
        obtain ⟨hmax, hnew⟩ := sealAndWrite_file hwrite
        obtain ⟨hwrapped, hw, hi⟩ := objKey_wrapped hkey
        refine ⟨fun h => (by cases h), fun _ => ⟨?_, _, hnew, ?_⟩⟩
        · exact length_storedBytes hbody ▸ hmax
        · rw [ObjectFile, if_pos hpriv]
          exact ⟨k, hwrapped, hw, hi, rfl⟩

end Save

/-- The index file comes after the object: it changes only the result. -/
theorem saveTokenObject_ensures {files : ObjectFiles} {obj : CkObject} {io : SaveIo}
    (hpriv : objectIsPrivate obj = 1 → SaveEnsures p (savePrivateTokenObject c masterKey o files
      obj io))
    (hpub : objectIsPrivate obj ≠ 1 → SaveEnsures p (savePublicTokenObject o files obj io)) :
    SaveEnsures p (saveTokenObject c masterKey o files obj io) := by
  have hsave : SaveEnsures p (if objectIsPrivate obj = 1
      then savePrivateTokenObject c masterKey o files obj io
      else savePublicTokenObject o files obj io) := by
    split
    · exact hpriv ‹_›
    · exact hpub ‹_›
  unfold saveTokenObject
  dsimp only
  split
  · exact .rc
  · exact hsave

section FirstSave

variable {fclose : Option Nat} {obj : CkObject} {body : List UInt8}

/-- No call fails in a save, except that `fclose` may. -/
def closingIo (key : Aes256Key) (fclose : Option Nat) : SaveIo :=
  { saveIo (some key) with fclose := fclose }

/-- The first save of an object. -/
def firstSave (c : StoreCrypto) (masterKey : Aes256Key) (o : ByteOrder) (fclose : Option Nat)
    (obj : CkObject) : SaveResult :=
  saveTokenObject c masterKey o (fun _ => none) obj (closingIo masterKey fclose)

/-- The first save is the one of the kind of object. -/
theorem firstSave_result : (firstSave c masterKey o fclose obj).result =
    (if objectIsPrivate obj = 1 then
      savePrivateTokenObject c masterKey o (fun _ => none) obj (closingIo masterKey fclose)
    else savePublicTokenObject o (fun _ => none) obj (closingIo masterKey fclose)).result := by
  unfold firstSave saveTokenObject
  dsimp only
  split
  · rename_i hindex
    cases hindex
  · rfl

/-- The first save of an object has a key. -/
theorem objKey_first (c : StoreCrypto) (masterKey : Aes256Key) (fclose : Option Nat)
    (name : Vector UInt8 8) (totalLen : Nat) :
    ∃ k, objKey c masterKey (fun _ => none) name totalLen (closingIo masterKey fclose) = .ok k :=
  ⟨_, rfl⟩

variable (hbody : attributesFlatten o obj.template = some body)

include hbody

/-- The first save of a public object succeeds. -/
theorem firstSave_public (hpub : objectIsPrivate obj ≠ 1) (hlen : len32 (objectSize obj) ≠ 0) :
    (firstSave c masterKey o fclose obj).result = .ok () := by
  have hlen : objectSize obj % 2 ^ 32 ≠ 0 := hlen
  rw [firstSave_result, if_neg hpub, savePublicTokenObject, objectFlatten_of_body hbody]
  dsimp only
  rw [if_neg hlen]
  rfl

/-- A private object whose file has 4 GB or more is written behind its buffer. -/
theorem firstSave_overflow (hpriv : objectIsPrivate obj = 1)
    (hroom : 2 ^ 32 ≤ HEADER_LEN + len32 (objectSize obj) + FOOTER_LEN) :
    (firstSave c masterKey o fclose obj).result = .error .fault := by
  have hlt : (HEADER_LEN + objectSize obj % 2 ^ 32 + FOOTER_LEN) % 2 ^ 32 <
      HEADER_LEN + objectSize obj % 2 ^ 32 + FOOTER_LEN :=
    lt_of_lt_of_le (Nat.mod_lt _ (by decide)) hroom
  rw [firstSave_result, if_pos hpriv, savePrivateTokenObject, objectFlatten_of_body hbody]
  dsimp only [savePrivateData]
  obtain ⟨k, hk⟩ := objKey_first c masterKey fclose obj.name
    ((HEADER_LEN + objectSize obj % 2 ^ 32 + FOOTER_LEN) % 2 ^ 32)
  rw [if_neg Bool.noConfusion, hk]
  dsimp only
  rw [if_pos hlt]

/-- The first save of a private object succeeds. -/
theorem firstSave_private (hpriv : objectIsPrivate obj = 1)
    (hroom : HEADER_LEN + len32 (objectSize obj) + FOOTER_LEN < 2 ^ 32)
    (hmax : len32 (objectSize obj) ≤ c.sealMax) :
    (firstSave c masterKey o fclose obj).result = .ok () := by
  have hlen := length_storedBytes hbody
  rw [firstSave_result, if_pos hpriv, savePrivateTokenObject, objectFlatten_of_body hbody]
  dsimp only [savePrivateData]
  obtain ⟨k, hk⟩ := objKey_first c masterKey fclose obj.name
    (HEADER_LEN + objectSize obj % 2 ^ 32 + FOOTER_LEN)
  rw [total_mod hroom, if_neg Bool.noConfusion, hk]
  dsimp only
  rw [if_neg (lt_irrefl _)]
  unfold sealAndWrite
  rw [if_neg (by rw [← hlen] at hmax; exact hmax.not_gt)]
  rfl

end FirstSave

/-! ### Objects that are read back -/

/-- An attribute is found by its type. -/
theorem templateAttributeFind_eq_some_iff {tmpl : List CkAttribute}
    (h : (tmpl.map CkAttribute.type).Nodup) {type : Nat} {a : CkAttribute} :
    templateAttributeFind tmpl type = some a ↔ a ∈ tmpl ∧ a.type = type := by
  induction tmpl with
  | nil => simp [templateAttributeFind]
  | cons b tmpl ih =>
    obtain ⟨hb, htmpl⟩ := List.nodup_cons.mp h
    have ih := ih htmpl
    unfold templateAttributeFind at ih ⊢
    by_cases hbt : b.type = type
    · rw [List.find?_cons_of_pos (by simpa using hbt), List.mem_cons]
      constructor
      · rintro ⟨⟩
        exact ⟨.inl rfl, hbt⟩
      · rintro ⟨rfl | hmem, ha⟩
        · rfl
        · -- no other attribute has the type of the first one
          rw [hbt, ← ha] at hb
          exact absurd (List.mem_map_of_mem hmem) hb
    · rw [List.find?_cons_of_neg (by simpa using hbt), ih, List.mem_cons]
      constructor
      · rintro ⟨hmem, ha⟩
        exact ⟨.inr hmem, ha⟩
      · rintro ⟨rfl | hmem, ha⟩
        · exact absurd ha hbt
        · exact ⟨hmem, ha⟩

/-- The same object, up to the order of the attributes. -/
structure SameObject (obj obj' : CkObject) : Prop where
  cls : obj'.cls = obj.cls
  name : obj'.name = obj.name
  template : obj'.template.Perm obj.template
  isPrivate : objectIsPrivate obj' = objectIsPrivate obj

/-- The order of the attributes does not matter. -/
theorem SameObject.reverse {o : ByteOrder} {obj : CkObject} (h : Storable o obj) :
    SameObject obj { obj with template := obj.template.reverse } := by
  have hperm := obj.template.reverse_perm
  refine ⟨rfl, rfl, hperm, ?_⟩
  unfold objectIsPrivate
  have hrev := (hperm.map CkAttribute.type).nodup_iff.mpr h.distinct
  have hfind : templateAttributeFind obj.template.reverse CKA_PRIVATE
      = templateAttributeFind obj.template CKA_PRIVATE := by
    apply Option.ext
    intro a
    rw [templateAttributeFind_eq_some_iff hrev, templateAttributeFind_eq_some_iff h.distinct,
      hperm.mem_iff]
  rw [hfind]

/-- What the name and the size of an object have to be for it to be read from its file. -/
structure Loadable (o : ByteOrder) (obj : CkObject) : Prop extends Storable o obj where
  name : ValidName obj.name
  size : objectSize obj < OCK_MAX_TOKEN_OBJ_SIZE

/-- Both kinds of readers find the object in its stored bytes. -/
def ReadsBack (o : ByteOrder) (dir : List UInt8) (obj : CkObject) (plain : List UInt8) : Prop :=
  ∀ old, old = none ∨ old = some obj →
    ∃ obj', readBack o dir obj.name plain old = .ok obj' ∧ SameObject obj obj'

section ReadsBack

variable {dir : List UInt8} {obj : CkObject} {body : List UInt8}
  (hbody : attributesFlatten o obj.template = some body)

include hbody

/-- A loadable object is read back from its stored bytes. -/
theorem readsBack_of_loadable (h : Loadable o obj) :
    ReadsBack o dir obj (storedBytes o obj body) := by
  have hmax : OCK_MAX_TOKEN_OBJ_SIZE = 2 ^ 31 := rfl
  have hsize := h.size
  have hpos : 0 < objectSize obj := Nat.succ_pos _
  have hlen := length_objectBytes_eq hbody
  have hall : storedBytes o obj body = objectBytes o obj body := by
    rw [storedBytes, len32, Nat.mod_eq_of_lt (by omega), ← hlen, List.take_length]
  intro old hold
  rw [hall, readBack, hlen, if_neg (by omega), restore_objectBytes h.toStorable hbody old
    (stands_bufferOf _) hlen.le ((nameMatches_objectPath dir obj.name).mpr h.name)]
  refine ⟨_, rfl, ?_⟩
  rcases hold with rfl | rfl
  all_goals exact SameObject.reverse h.toStorable

/-- The template that was read back bounds the size of the one that was stored, so that no byte was
cut off. -/
theorem loadable_of_readsBack (h : ReadsBack o dir obj (storedBytes o obj body)) :
    Loadable o obj := by
  obtain ⟨obj', hread, hsame⟩ := h none (.inl rfl)
  have hmax : OCK_MAX_TOKEN_OBJ_SIZE = 2 ^ 31 := rfl
  have hlen := length_storedBytes hbody
  rw [readBack] at hread
  obtain ⟨hsmall, hread⟩ := ite_error_left_eq_ok.mp hread
  rw [hlen] at hread hsmall
  have hn : len32 (objectSize obj) < 2 ^ 31 := by omega
  obtain ⟨hname, h16, htmpl, hcls⟩ := restore_take_ok hn hread
  have hbytes := htmpl.size
  rw [compressedSize_perm hsame.template] at hbytes
  have hsize : objectSize obj < 2 ^ 32 := by
    unfold objectSize at hn h16 hbytes ⊢
    omega
  rw [len32, Nat.mod_eq_of_lt hsize] at hn
  have hcount := length_le_compressedSize obj.template
  refine ⟨⟨hsame.cls ▸ hcls rfl, ?_, ?_, ?_⟩, ?_, by omega⟩
  · omega
  · exact (hsame.template.map _).nodup_iff.mp htmpl.distinct
  · exact allFit_iff.mpr fun a ha => allFit_iff.mp htmpl.fits a (hsame.template.mem_iff.mpr ha)
  · exact (nameMatches_objectPath dir obj.name).mp hname

end ReadsBack

/-! ### Main result -/

section Main

variable (c : StoreCrypto) (masterKey : Aes256Key) (dir : List UInt8) (o : ByteOrder)

/-- What the readers make of the files after a save. -/
def Loads (files : ObjectFiles) (obj : CkObject) : Prop :=
  (∃ obj', reloadTokenObject c masterKey dir o files obj = .ok obj' ∧ SameObject obj obj') ∧
    if objectIsPrivate obj = 1 then
      ∃ obj', loadPrivateTokenObject c masterKey dir o files obj.name = .ok (some obj') ∧
        SameObject obj obj'
    else ∃ obj', loadPublicTokenObject dir o files obj.name = some obj' ∧ SameObject obj obj'

/-- Whenever an object is saved, it can be loaded back, and saving it does not leave the buffers. -/
def LoadsBack (fclose : Option Nat) (obj : CkObject) : Prop :=
  ∀ files io, io.fclose = fclose → SaveEnsures (fun new => Loads c masterKey dir o new obj)
    (saveTokenObject c masterKey o files obj io)

/-- All bytes get into the file before it is closed. -/
def WrittenOut (fclose : Option Nat) (obj : CkObject) : Prop := ∀ n ∈ fclose, fileSize obj ≤ n

/-- The save of an object stays in its buffers and always fails: the plaintext is too long for the
seal, or there are no bytes to write. -/
def SaveRefused (obj : CkObject) : Prop :=
  ReadableAttrs obj.template ∧ if objectIsPrivate obj = 1 then
      HEADER_LEN + len32 (objectSize obj) + FOOTER_LEN < 2 ^ 32 ∧ c.sealMax < len32 (objectSize obj)
    else len32 (objectSize obj) = 0

end Main

variable {dir : List UInt8} {files : ObjectFiles} {obj : CkObject} {body : List UInt8}

/-- The two kinds of readers one by one. -/
theorem readsBack_iff {plain : List UInt8} :
    ReadsBack o dir obj plain ↔
      (∃ obj', readBack o dir obj.name plain (some obj) = .ok obj' ∧ SameObject obj obj') ∧
        ∃ obj', readBack o dir obj.name plain none = .ok obj' ∧ SameObject obj obj' := by
  constructor
  · intro h
    exact ⟨h _ (.inr rfl), h _ (.inl rfl)⟩
  · rintro ⟨hreload, hload⟩ old (rfl | rfl)
    · exact hload
    · exact hreload

variable {x : Except CkRv CkObject}

/-- The object inside a result. -/
theorem map_some_eq_ok {obj : CkObject} : x.map some = .ok (some obj) ↔ x = .ok obj := by
  cases x <;> simp [Except.map]

/-- A result that is a success. -/
theorem toOption_eq_some {obj : CkObject} : x.toOption = some obj ↔ x = .ok obj := by
  cases x <;> simp [Except.toOption]

section
variable (hbody : attributesFlatten o obj.template = some body)
include hbody

/-- The three readers are the two ways to read the stored bytes. -/
theorem loads_iff_of_objectFile {file : List UInt8} (hv : v = .big ∨ v = o)
    (hbig : objectIsPrivate obj = 1 → wordValue .big (wordBytes v 4 (storedBytes o obj body).length)
      = (storedBytes o obj body).length)
    (hfile : files (fileName obj.name) = some file) (h : ObjectFile c masterKey o v obj body file) :
    Loads c masterKey dir o files obj ↔ ReadsBack o dir obj (storedBytes o obj body) := by
  have hlen : (storedBytes o obj body).length < 2 ^ 32 := length_storedBytes hbody ▸ len32_lt _
  rw [ObjectFile] at h
  rw [Loads, readsBack_iff]
  by_cases hpriv : objectIsPrivate obj = 1
  · rw [if_pos hpriv] at h ⊢
    obtain ⟨k, hkind⟩ := h
    rw [reload_privateFile hfile hlen hkind hv]
    refine and_congr_right fun hreload => ?_
    obtain ⟨obj', hread, -⟩ := hreload
    have hreadBack : (storedBytes o obj body).length ≠ 0 ∧
        (storedBytes o obj body).length < OCK_MAX_TOKEN_OBJ_SIZE := by
      have hsmall := (ite_error_left_eq_ok.mp hread).1
      omega
    rw [load_privateFile hfile hkind (hbig hpriv) hreadBack]
    simp only [map_some_eq_ok]
  · rw [if_neg hpriv] at h ⊢
    rw [reload_publicFile hfile hlen h hv, load_publicFile hfile hlen h hv]
    simp only [toOption_eq_some]

/-- A file that `fclose` has cut off is refused. -/
theorem loads_iff {fclose : Option Nat} (h : SavedAs c masterKey o fclose obj body files) :
    Loads c masterKey dir o files obj ↔
      ReadsBack o dir obj (storedBytes o obj body) ∧ WrittenOut fclose obj := by
  obtain ⟨file, hfile, hkind⟩ := h
  have hlen := length_storedBytes hbody
  have hlt : (storedBytes o obj body).length < 2 ^ 32 := hlen ▸ len32_lt _
  -- A `fclose` that loses nothing leaves the file as it was written.
  have hwhole : closedFile fclose file = file →
      (Loads c masterKey dir o files obj ↔ ReadsBack o dir obj (storedBytes o obj body)) := by
    intro hclosed
    rw [hclosed] at hfile
    exact loads_iff_of_objectFile hbody (.inl rfl) (fun _ => wordValue_wordBytes_of_lt hlt) hfile
      hkind
  cases fclose with
  | none =>
    rw [hwhole rfl, and_iff_left]
    rintro _ ⟨⟩
  | some n =>
    have hflen : file.length = fileSize obj := hkind.length hbody
    by_cases hn : fileSize obj ≤ n
    · rw [hwhole (List.take_of_length_le (hflen.trans_le hn)), and_iff_left]
      rintro _ ⟨⟩
      exact hn
    -- A file that is cut off is refused when it is read again.
    · refine iff_of_false ?_ fun h => hn (h.2 n rfl)
      rintro ⟨⟨obj', hreload, -⟩, -⟩
      rw [fileSize, ← hlen] at hn
      rw [ObjectFile] at hkind
      split at hkind
      · next hpriv =>
        obtain ⟨k, hkind⟩ := hkind
        rw [if_pos hpriv] at hn
        rw [reload_privateFile_cut hfile hlt hkind (.inl rfl) (not_le.mp hn)] at hreload
        cases hreload
      · next hpub =>
        rw [if_neg hpub] at hn
        rw [reload_publicFile_cut hfile hlt hkind (.inl rfl) (not_le.mp hn)] at hreload
        cases hreload

/-- Saving an object that is not refused. -/
theorem save_ensures
    (hroom : objectIsPrivate obj = 1 → HEADER_LEN + len32 (objectSize obj) + FOOTER_LEN < 2 ^ 32)
    (io : SaveIo) :
    SaveEnsures (fun new => ¬ SaveRefused c obj ∧ SavedAs c masterKey o io.fclose obj body new)
      (saveTokenObject c masterKey o files obj io) := by
  apply saveTokenObject_ensures
  · intro hpriv
    refine (savePrivate_ensures hbody hpriv (hroom hpriv)).mono fun new hnew => ⟨?_, hnew.2⟩
    rintro ⟨-, hrefused⟩
    rw [if_pos hpriv] at hrefused
    exact hnew.1.not_gt hrefused.2
  · intro hpub
    refine (savePublic_ensures hbody hpub).mono fun new hnew => ⟨?_, hnew.2⟩
    rintro ⟨-, hrefused⟩
    rw [if_neg hpub] at hrefused
    exact hnew.1 hrefused

/-- The first save does something wrong, or is refused, or succeeds. -/
theorem firstSave_cases (c : StoreCrypto) (masterKey : Aes256Key) (fclose : Option Nat) :
    (firstSave c masterKey o fclose obj).result = .error .fault ∨ SaveRefused c obj ∨
      (firstSave c masterKey o fclose obj).result = .ok () ∧ (objectIsPrivate obj = 1 →
        HEADER_LEN + len32 (objectSize obj) + FOOTER_LEN < 2 ^ 32) := by
  have hreadable := (attributesFlatten_isSome_iff o obj.template).mp (by rw [hbody]; rfl)
  by_cases hpriv : objectIsPrivate obj = 1
  · by_cases hroom : HEADER_LEN + len32 (objectSize obj) + FOOTER_LEN < 2 ^ 32
    · by_cases hmax : len32 (objectSize obj) ≤ c.sealMax
      · exact .inr (.inr ⟨firstSave_private hbody hpriv hroom hmax, fun _ => hroom⟩)
      · exact .inr (.inl ⟨hreadable, by rw [if_pos hpriv]; exact ⟨hroom, not_le.mp hmax⟩⟩)
    · exact .inl (firstSave_overflow hbody hpriv (not_lt.mp hroom))
  · by_cases hlen : len32 (objectSize obj) = 0
    · exact .inr (.inl ⟨hreadable, by rwa [if_neg hpriv]⟩)
    · exact .inr (.inr ⟨firstSave_public hbody hpriv hlen, fun h => absurd h hpriv⟩)

end

/-- A public data object. -/
def dataObject (value : List UInt8) : CkObject where
  cls := 0
  name := Vector.replicate 8 65
  template := [.plain CKA_PRIVATE [0] rfl, .plain 0x11 value rfl]

/-- The size of the data object of the concrete runs. -/
theorem objectSize_dataObject (value : List UInt8) :
    objectSize (dataObject value) = value.length + 41 := by
  have hsize : attributesGetCompressedSize (dataObject value).template =
      13 + (12 + value.length + 0) := rfl
  rw [objectSize, hsize]
  omega

/-- The first save of a large data object succeeds, and both readers refuse its file. -/
theorem dataObject_refused {value : List UInt8} (hvalue : value.length = 2 ^ 31) :
    (firstSave c masterKey o none (dataObject value)).result = .ok () ∧
      reloadTokenObject c masterKey dir o (firstSave c masterKey o none (dataObject value)).files
        (dataObject value) = .error .functionFailed ∧
      loadPublicTokenObject dir o (firstSave c masterKey o none (dataObject value)).files
        (dataObject value).name = none := by
  have hlen : len32 (objectSize (dataObject value)) = 2 ^ 31 + 41 := by
    rw [objectSize_dataObject, hvalue]
    rfl
  have hpub : objectIsPrivate (dataObject value) ≠ 1 := by
    have hflag : objectIsPrivate (dataObject value) = 0 := rfl
    rw [hflag]
    decide
  have hreadable : ReadableAttrs (dataObject value).template := by
    exact ⟨fun h => absurd h (by decide), fun h => absurd h (by decide), trivial⟩
  obtain ⟨body, hbody⟩ := Option.isSome_iff_exists.mp
    ((attributesFlatten_isSome_iff o (dataObject value).template).mpr hreadable)
  have hsaved : (firstSave c masterKey o none (dataObject value)).result = .ok () :=
    firstSave_public hbody hpub (by rw [hlen]; decide)
  obtain ⟨file, hfile, hkind⟩ :=
    ((save_ensures hbody (fun h => absurd h hpub) (closingIo masterKey none)).2 hsaved).2
  rw [ObjectFile, if_neg hpub] at hkind
  have hstored : (storedBytes o (dataObject value) body).length = 2 ^ 31 + 41 :=
    (length_storedBytes hbody).trans hlen
  have hsmall : (storedBytes o (dataObject value) body).length < 2 ^ 32 := by
    rw [hstored]
    decide
  have hrefused : ∀ old, readBack o dir (dataObject value).name
      (storedBytes o (dataObject value) body) old = .error .functionFailed := fun old => by
    rw [readBack, hstored]
    exact if_pos (.inr (by decide))
  refine ⟨hsaved, (reload_publicFile hfile hsmall hkind (.inl rfl)).trans (hrefused _), ?_⟩
  exact (load_publicFile hfile hsmall hkind (.inl rfl)).trans (by rw [hrefused]; rfl)

section
variable (c : StoreCrypto) (masterKey : Aes256Key) (dir : List UInt8) (o : ByteOrder)
  (files : ObjectFiles)

/-- The file `name` is as a save of `obj` writes it, with its header in the byte order `v`: the one
of this version, or the one of the machine. -/
structure Intact (v : ByteOrder) (name : Vector UInt8 8) (obj : CkObject) : Prop where
  order : v = .big ∨ v = o
  loadable : Loadable o obj
  named : obj.name = name
  file : ∃ file body, files (fileName obj.name) = some file ∧
    attributesFlatten o obj.template = some body ∧ ObjectFile c masterKey o v obj body file

/-- A private file that has all its bytes and cannot be restored. -/
structure Unrestorable (file path : List UInt8) : Prop where
  isPrivate : file.getD 4 0 ≠ 0
  size : 0 < wordValue .big (slice file 60 4) ∧
    wordValue .big (slice file 60 4) < OCK_MAX_TOKEN_OBJ_SIZE
  length : HEADER_LEN + wordValue .big (slice file 60 4) + FOOTER_LEN ≤ file.length
  restore : ∀ obj, restorePrivateTokenObject c masterKey o (file.take HEADER_LEN)
    (slice file HEADER_LEN (wordValue .big (slice file 60 4)))
    (slice file (HEADER_LEN + wordValue .big (slice file 60 4)) FOOTER_LEN) none path ≠ .ok obj

/-- Every intact object of the kind is in the list, and no name is there twice. -/
def RestoresOnce (kind : Bool) (names : List (Vector UInt8 8))
    (loaded : List (Vector UInt8 8 × CkObject)) : Prop :=
  (loaded.map Prod.fst).Nodup ∧ ∀ name ∈ names, ∀ v obj, (objectIsPrivate obj = 1 ↔ kind = true) →
    Intact c masterKey o files v name obj → ∃ obj', (name, obj') ∈ loaded ∧ SameObject obj obj'

/-- Both loaders restore all intact objects. -/
def LoadersRestore (names : List (Vector UInt8 8)) : Prop :=
  RestoresOnce c masterKey o files false names (loadPublicTokenObjects dir o files names) ∧
    RestoresOnce c masterKey o files true names
      (loadPrivateTokenObjects c masterKey dir o files names).1

variable {c masterKey dir o files} {v : ByteOrder} {name : Vector UInt8 8} {obj : CkObject}
  {names : List (Vector UInt8 8)} {found : Vector UInt8 8 → Option CkObject}

/-- The list has the names at which something is found. -/
theorem mem_entries :
    (name, obj) ∈ names.filterMap (fun n => (found n).map (n, ·)) ↔
      name ∈ names ∧ found name = some obj := by
  simp only [List.mem_filterMap, Option.map_eq_some_iff, Prod.mk.injEq]
  constructor
  · rintro ⟨n, hn, x, hx, rfl, rfl⟩
    exact ⟨hn, hx⟩
  · rintro ⟨hn, hx⟩
    exact ⟨name, hn, obj, hx, rfl, rfl⟩

/-- Names that are different stay different in the list. -/
theorem nodup_entries (hnodup : names.Nodup) :
    ((names.filterMap fun n => (found n).map (n, ·)).map Prod.fst).Nodup := by
  rw [List.map_filterMap]
  refine hnodup.filterMap fun a a' b ha ha' => ?_
  simp only [Option.map_map, Option.mem_def, Option.map_eq_some_iff] at ha ha'
  obtain ⟨_, -, rfl⟩ := ha
  obtain ⟨_, -, h⟩ := ha'
  exact h.symm

/-- All bytes of a loadable object are stored. -/
theorem Loadable.length_storedBytes {body : List UInt8} (h : Loadable o obj)
    (hbody : attributesFlatten o obj.template = some body) :
    (storedBytes o obj body).length = objectSize obj := by
  have hsize : objectSize obj < 2 ^ 31 := h.size
  rw [Common.length_storedBytes hbody, len32, Nat.mod_eq_of_lt (by omega)]

/-- All readers find an intact object again, if its size is the same in big-endian order. -/
theorem Intact.loads (h : Intact c masterKey o files v name obj) (dir : List UInt8)
    (hbig : objectIsPrivate obj = 1 →
      wordValue .big (wordBytes v 4 (objectSize obj)) = objectSize obj) :
    Loads c masterKey dir o files obj := by
  obtain ⟨file, body, hfile, hbody, hkind⟩ := h.file
  rw [← h.loadable.length_storedBytes hbody] at hbig
  exact (loads_iff_of_objectFile hbody h.order hbig hfile hkind).mpr
    (readsBack_of_loadable hbody h.loadable)

/-- `load_private_token_objects` ignores a small object with its size in little-endian order. -/
theorem Intact.ignored (h : Intact c masterKey o files .little name obj)
    (hpriv : objectIsPrivate obj = 1) (hsmall : objectSize obj < 2 ^ 16) :
    loadPrivateTokenObject c masterKey dir o files name = .ok none := by
  obtain ⟨file, body, hfile, hbody, hkind⟩ := h.file
  have hlen := h.loadable.length_storedBytes hbody
  have hpos : 0 < objectSize obj := Nat.succ_pos _
  rw [ObjectFile, if_pos hpriv] at hkind
  obtain ⟨k, hkind⟩ := hkind
  rw [← h.named]
  exact load_privateFile_little hfile hkind (by omega)

/-- The loop over the private objects goes on unless a file cannot be restored. -/
theorem isOk_loadPrivateTokenObject :
    (loadPrivateTokenObject c masterKey dir o files name).isOk = true ↔
      ∀ file, files (fileName name) = some file →
        ¬ Unrestorable c masterKey o file (objectPath dir name) := by
  rw [loadPrivateTokenObject]
  cases hfile : files (fileName name) with
  | none => exact iff_of_true rfl fun _ h => by cases h
  | some file =>
    dsimp only
    have hheader : HEADER_LEN = 64 := rfl
    -- Skipped are a short file, a public object, a bad size and a file that ends too early.
    split_ifs with hkind hsize hlen
    · refine iff_of_true rfl fun _ h hun => ?_
      cases h
      have hlen := hun.length
      rcases hkind with hshort | hpublic
      · omega
      · exact hun.isPrivate hpublic
    · refine iff_of_true rfl fun _ h hun => ?_
      cases h
      have := hun.size
      omega
    · refine iff_of_true rfl fun _ h hun => ?_
      cases h
      exact hun.length.not_gt hlen
    -- Only what the restore itself refuses ends the loading.
    · cases hrestore : restorePrivateTokenObject c masterKey o (file.take HEADER_LEN)
          (slice file HEADER_LEN (wordValue .big (slice file 60 4)))
          (slice file (HEADER_LEN + wordValue .big (slice file 60 4)) FOOTER_LEN) none
          (objectPath dir name) with
      | ok obj =>
        refine iff_of_true rfl fun _ h hun => ?_
        cases h
        exact hun.restore obj hrestore
      | error rc =>
        refine iff_of_false (by rintro ⟨⟩) fun h => h file rfl ?_
        refine ⟨fun hzero => hkind (.inr hzero), by omega, not_lt.mp hlen, fun obj hobj => ?_⟩
        rw [hrestore] at hobj
        cases hobj

/-- The private objects are loaded up to the first error. -/
theorem loadPrivateTokenObjects_eq :
    (loadPrivateTokenObjects c masterKey dir o files names).1
      = (names.takeWhile fun n => (loadPrivateTokenObject c masterKey dir o files n).isOk).filterMap
          fun n => (loadPrivateTokenObject c masterKey dir o files n).toOption.join.map (n, ·) := by
  induction names with
  | nil => rfl
  | cons n names ih =>
    rw [loadPrivateTokenObjects, List.takeWhile_cons]
    cases h : loadPrivateTokenObject c masterKey dir o files n with
    | error rc => rfl
    | ok found =>
      show (found.map (n, ·)).toList ++ (loadPrivateTokenObjects c masterKey dir o files names).1
        = List.filterMap _ (n :: List.takeWhile _ names)
      rw [ih, List.filterMap_cons, h]
      cases found <;> rfl

/-- A name is before the end of the loop if the loop goes on after all names in front of it. -/
theorem mem_takeWhile_iff {p : Vector UInt8 8 → Bool} {front back : List (Vector UInt8 8)}
    (hnodup : (front ++ name :: back).Nodup) (hname : p name = true) :
    name ∈ (front ++ name :: back).takeWhile p ↔ ∀ n ∈ front, p n = true := by
  constructor
  · intro h
    rw [List.takeWhile_append] at h
    split at h
    · next hall =>
      rw [← (List.takeWhile_prefix p).eq_of_length hall]
      exact fun n hn => List.mem_takeWhile_imp hn
    · have hfront := (List.takeWhile_prefix p).subset h
      exact absurd rfl ((List.nodup_append.mp hnodup).2.2 name hfront name List.mem_cons_self)
  · intro h
    rw [List.takeWhile_append_of_pos h, List.takeWhile_cons_of_pos hname]
    exact List.mem_append_right _ List.mem_cons_self

section
variable (c masterKey dir o files)

/-- The sizes of the intact private objects are the same in big-endian order. -/
def SizesInBig (names : List (Vector UInt8 8)) : Prop :=
  ∀ name ∈ names, ∀ v obj, Intact c masterKey o files v name obj → objectIsPrivate obj = 1 →
    wordValue .big (wordBytes v 4 (objectSize obj)) = objectSize obj

/-- No intact private object is listed after a private file that cannot be restored. -/
def NoneBehind (names : List (Vector UInt8 8)) : Prop :=
  ∀ front name back v obj, names = front ++ name :: back → Intact c masterKey o files v name obj →
    objectIsPrivate obj = 1 → ∀ n ∈ front, ∀ file, files (fileName n) = some file →
      ¬ Unrestorable c masterKey o file (objectPath dir n)

end

/-- All intact public objects are loaded, once each. -/
theorem restoresOnce_public (hnodup : names.Nodup) :
    RestoresOnce c masterKey o files false names (loadPublicTokenObjects dir o files names) := by
  refine ⟨nodup_entries hnodup, fun name hname v obj hkind h => ?_⟩
  have hpub : objectIsPrivate obj ≠ 1 := fun h => Bool.noConfusion (hkind.mp h)
  have hloads := (h.loads dir fun hpriv => absurd hpriv hpub).2
  rw [if_neg hpub, h.named] at hloads
  obtain ⟨obj', hload, hsame⟩ := hloads
  exact ⟨obj', mem_entries.mpr ⟨hname, hload⟩, hsame⟩

/-- So are the private ones, exactly if none is behind a file that fails. -/
theorem restoresOnce_private_iff (hnodup : names.Nodup)
    (hsizes : SizesInBig c masterKey o files names) :
    RestoresOnce c masterKey o files true names
        (loadPrivateTokenObjects c masterKey dir o files names).1 ↔
      NoneBehind c masterKey dir o files names := by
  have hload : ∀ name ∈ names, ∀ v obj, Intact c masterKey o files v name obj →
      objectIsPrivate obj = 1 → ∃ obj', loadPrivateTokenObject c masterKey dir o files name =
        .ok (some obj') ∧ SameObject obj obj' := by
    intro name hname v obj h hpriv
    have hloads := (h.loads dir (hsizes name hname v obj h)).2
    rwa [if_pos hpriv, h.named] at hloads
  rw [loadPrivateTokenObjects_eq]
  constructor
  · rintro ⟨-, h⟩ front name back v obj rfl hintact hpriv n hn
    have hname : name ∈ front ++ name :: back := by simp
    obtain ⟨obj', hmem, -⟩ := h name hname v obj (iff_of_true hpriv rfl) hintact
    obtain ⟨obj'', hobj, -⟩ := hload name hname v obj hintact hpriv
    have hall := (mem_takeWhile_iff hnodup (by rw [hobj]; rfl)).mp (mem_entries.mp hmem).1
    exact isOk_loadPrivateTokenObject.mp (hall n hn)
  · intro h
    refine ⟨nodup_entries (hnodup.sublist (List.takeWhile_sublist _)), fun name hname v obj hkind
      hintact => ?_⟩
    have hpriv := hkind.mpr rfl
    obtain ⟨obj', hobj, hsame⟩ := hload name hname v obj hintact hpriv
    obtain ⟨front, back, rfl⟩ := List.append_of_mem hname
    refine ⟨obj', mem_entries.mpr ⟨?_, by rw [hobj]; rfl⟩, hsame⟩
    refine (mem_takeWhile_iff hnodup (by rw [hobj]; rfl)).mpr fun n hn => ?_
    exact isOk_loadPrivateTokenObject.mpr (h front name back v obj rfl hintact hpriv n hn)

end

/-- As `openCrypto`, but a seal with a wrong tag is refused. -/
def tagCrypto : StoreCrypto :=
  { openCrypto with
    aes256GcmUnseal := fun _ _ _ cipher tag =>
      if tag = List.replicate 16 0 then .ok cipher else .error ⟨.functionFailed, nofun⟩
    unseal_seal := fun _ _ _ _ => rfl }

/-- A private file with an object without attributes, its name and its tag. -/
def emptyFile (v : ByteOrder) (letter tag : UInt8) : List UInt8 :=
  wordBytes v 4 TOK_NEW_DATA_STORE ++ 1 :: List.replicate 55 0 ++ wordBytes v 4 16 ++
    List.replicate 8 0 ++ List.replicate 8 letter ++ List.replicate 16 tag

/-- The key in such a file. -/
def zeroKey : ObjKey where
  key := Vector.replicate 32 0
  source := .unwrapped
  iv := List.replicate 12 0
  wrapped := List.replicate 40 0

/-- A file of an object without attributes, in either byte order. -/
theorem intact_emptyFile (files : ObjectFiles) (v : ByteOrder)
    (hfile : files (List.replicate 8 66) = some (emptyFile v 66 0)) :
    Intact tagCrypto (Vector.replicate 32 9) .little files v (Vector.replicate 8 66)
      ⟨0, Vector.replicate 8 66, []⟩ := by
  have hpriv : objectIsPrivate ⟨0, Vector.replicate 8 66, []⟩ = 1 := rfl
  have hname : ValidName (Vector.replicate 8 66) := by
    intro b hb
    rw [List.eq_of_mem_replicate hb]
    decide
  refine ⟨by cases v <;> decide, ⟨⟨by decide, by decide, List.nodup_nil, trivial⟩, hname,
    by decide⟩, rfl, _, [], hfile, rfl, ?_⟩
  rw [ObjectFile, if_pos hpriv]
  refine ⟨zeroKey, rfl, rfl, rfl, ?_⟩
  cases v <;> rfl

/-- Two private files, of which the first one has a wrong tag. -/
def twoFiles (name : List UInt8) : Option (List UInt8) :=
  if name = List.replicate 8 65 then some (emptyFile .big 65 1)
  else some (emptyFile .big 66 0)

end OpenCryptoki.Proofs.Common
