import OpenCryptoki.Proofs.Common.ObjectStore

/-!
# `OpenCryptoki.Proofs.Common.ObjectReaders`: the readers of object files

`readers_agree`: `reload_token_object` and the loaders of all objects restore the same from a file
whose private flag is 0 or 1, unless it is private and has its version in the byte order of the
machine. Only `reload_token_object` then reads the size in that order too, and the small objects
that versions 3.12 to 3.14 have saved on a little-endian machine are not loaded. A flag other than 0
and 1 makes a file a public one for `load_public_token_objects` and a private one for the others.
-/

set_option autoImplicit false

namespace OpenCryptoki.Proofs.Common

open Lib OpenCryptoki.Common

variable (c : StoreCrypto) (masterKey : Aes256Key) (dir : List UInt8) (o : ByteOrder)
  (files : ObjectFiles)

/-! ### One file -/

/-- One of the loaders of all objects restores an object with these attributes from the file. -/
def BulkLoads (name : Vector UInt8 8) (tmpl : List CkAttribute) : Prop :=
  (loadPublicTokenObject dir o files name).map CkObject.template = some tmpl ∨
    (loadPrivateTokenObject c masterKey dir o files name).toOption.join.map CkObject.template
      = some tmpl

/-- The object is restored by `reload_token_object` exactly if it is restored by a loader of all
objects, with the same attributes. -/
def ReadersAgree (obj : CkObject) : Prop :=
  ∀ tmpl, (reloadTokenObject c masterKey dir o files obj).toOption.map CkObject.template =
    some tmpl ↔
    BulkLoads c masterKey dir o files obj.name tmpl

/-- The private flag of a file is 0 or 1, and the size of a private one does not depend on the byte
order in which it is read. -/
def Regular (file : List UInt8) : Prop :=
  file.getD 4 0 = 0 ∨ file.getD 4 0 = 1 ∧
    (wordValue o (slice file 0 4) = TOK_NEW_DATA_STORE →
      wordValue o (slice file 60 4) = wordValue .big (slice file 60 4))

/-- The attributes do not depend on the object that gets them. -/
theorem template_restore (data : Buf) (n : Nat) (fname : Option (List UInt8)) (obj : CkObject) :
    (objectRestoreWithSize o data n fname (some obj)).toOption.map CkObject.template
      = (objectRestoreWithSize o data n fname none).toOption.map CkObject.template := by
  unfold objectRestoreWithSize
  split
  · rfl
  · dsimp only
    split
    · cases templateUnflattenWithSize o data 16 (wordValue o (data.read 4 4)) (n - 16) <;> rfl
    · rfl

/-- The attributes do not depend on the object that is filled. -/
theorem template_restorePrivate (header data footer path : List UInt8) (obj : CkObject) :
    (restorePrivateTokenObject c masterKey o header data footer (some obj) path).toOption.map
        CkObject.template
      = (restorePrivateTokenObject c masterKey o header data footer none path).toOption.map
          CkObject.template := by
  unfold restorePrivateTokenObject
  split
  · rfl
  · split
    · rfl
    · exact template_restore o _ _ _ obj

section
variable {c masterKey dir o files} {obj : CkObject} {file : List UInt8}
  (hfile : files (fileName obj.name) = some file)
include hfile

/-- A public object is reloaded as it is loaded. -/
theorem reload_public (hflag : file.getD 4 0 = 0) :
    (reloadTokenObject c masterKey dir o files obj).toOption.map CkObject.template
      = (loadPublicTokenObject dir o files obj.name).map CkObject.template := by
  have hcommon : HEADER_COMMON_LEN ≤ PUB_HEADER_LEN := by decide
  have hone : ¬ file.getD 4 0 = 1 := by
    rw [hflag]
    decide
  rw [reloadTokenObject, loadPublicTokenObject, hfile]
  dsimp only
  rw [if_neg (not_not_intro hflag)]
  simp only [hone, or_false]
  -- The same conditions in another order: mixed cases are impossible.
  split_ifs <;> first | rfl | omega | skip
  rw [template_restore]
  cases objectRestoreWithSize o _ _ _ none <;> rfl

/-- A private object is reloaded as it is loaded, if the sizes are read alike. -/
theorem reload_private (hflag : file.getD 4 0 ≠ 0)
    (hsize : headerSize o file 60 = wordValue .big (slice file 60 4)) :
    (reloadTokenObject c masterKey dir o files obj).toOption.map CkObject.template
      = (loadPrivateTokenObject c masterKey dir o files obj.name).toOption.join.map
          CkObject.template := by
  have hcommon : HEADER_COMMON_LEN ≤ HEADER_LEN := by decide
  rw [reloadTokenObject, loadPrivateTokenObject, hfile]
  dsimp only
  rw [if_pos hflag, hsize]
  simp only [hflag, or_false]
  split_ifs <;> first | rfl | omega | skip
  rw [template_restorePrivate]
  cases restorePrivateTokenObject c masterKey o _ _ _ none _ <;> rfl

/-- The loader of public objects skips a private one. -/
theorem loadPublic_private (hflag : file.getD 4 0 = 1) :
    loadPublicTokenObject dir o files obj.name = none := by
  rw [loadPublicTokenObject, hfile]
  dsimp only
  rw [if_pos (.inr hflag)]

/-- The loader of private objects skips a public one. -/
theorem loadPrivate_public (hflag : file.getD 4 0 = 0) :
    loadPrivateTokenObject c masterKey dir o files obj.name = .ok none := by
  rw [loadPrivateTokenObject, hfile]
  dsimp only
  rw [if_pos (.inr hflag)]

/-- On a regular file the readers agree. -/
theorem readersAgree_of_regular (h : Regular o file) :
    ReadersAgree c masterKey dir o files obj := by
  intro tmpl
  rcases h with hflag | ⟨hflag, hsize⟩
  · rw [reload_public hfile hflag, BulkLoads, loadPrivate_public hfile hflag]
    exact (or_iff_left fun h => by cases h).symm
  · have hbig : headerSize o file 60 = wordValue .big (slice file 60 4) := by
      rw [headerSize]
      split
      · exact hsize ‹_›
      · rfl
    rw [reload_private hfile (by rw [hflag]; decide) hbig, BulkLoads,
      loadPublic_private hfile hflag]
    exact (or_iff_right fun h => by cases h).symm

end

/-- A small private object that was saved in little-endian order is only reloaded. -/
theorem not_readersAgree_of_intact {obj : CkObject}
    (h : Intact c masterKey o files .little obj.name obj) (hpriv : objectIsPrivate obj = 1)
    (hsmall : objectSize obj < 2 ^ 16) : ¬ ReadersAgree c masterKey dir o files obj := by
  obtain ⟨file, body, hfile, hbody, hkind⟩ := h.file
  rw [ObjectFile, if_pos hpriv] at hkind
  obtain ⟨k, hkind⟩ := hkind
  have hlen : (storedBytes o obj body).length < 2 ^ 32 := length_storedBytes hbody ▸ len32_lt _
  obtain ⟨obj', hread, -⟩ := readsBack_of_loadable hbody h.loadable (some obj) (.inr rfl)
  intro hagree
  have hbulk := (hagree obj'.template).mp (by
    rw [reload_privateFile hfile hlen hkind h.order, hread]
    rfl)
  rw [BulkLoads, loadPublic_private hfile hkind.flag, h.ignored hpriv hsmall] at hbulk
  rcases hbulk with hbulk | hbulk
  all_goals cases hbulk

end OpenCryptoki.Proofs.Common
