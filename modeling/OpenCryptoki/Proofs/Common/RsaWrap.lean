import Mathlib.Data.List.Nodup
import OpenCryptoki.Common.RsaWrap

/-!
# `OpenCryptoki.Proofs.Common.RsaWrap`: wrapping and the attributes of the key

`rsaPrivWrapGetData_harmless_iff` says when wrapping leaves the key as it is. The clean-up of
`calc_rsa_crt_from_me` frees what the five variables point to. For the attributes that have not been
built these are the attributes that have been found in the template. Only where there is no context
for the numbers, there is no clean-up.
-/

set_option autoImplicit false

namespace OpenCryptoki.Proofs.Common

open OpenCryptoki.Common List

/-- The attribute is not in the template, or it is empty: its variable is `NULL`. -/
def Missing (tmpl : TemplateValues) (type : Nat) : Prop :=
  (templateAttributeGetNonEmpty tmpl type).2 = none

/-- The attributes that `calc_rsa_crt_from_me` has not built when it is done. -/
def unbuilt (crt : Nat → Except CkRv (List UInt8)) : List Nat :=
  crtTypes.dropWhile fun type => (crt type).isOk

/-- The template has its attributes, with their values, and every attribute that has been built has
been freed once. -/
structure WrapHarmless (tmpl : TemplateValues) (m : AttrMemory) : Prop where
  value : ∀ type, m.value (.ofTemplate type) = (tmpl type).getD []
  owned : ∀ type, .ofTemplate type ∉ m.freed
  freed : ∀ p ∈ m.allocated, m.freed.count p = 1

variable {tmpl : TemplateValues} {types done rest : List Nat} {ptrs : List (Option AttrPtr)}
  {var : Nat → Option AttrPtr} {type : Nat} {m m' : AttrMemory}

/-- Nothing has been freed yet. -/
theorem wrapHarmless_initial : WrapHarmless tmpl (.initial tmpl) :=
  ⟨fun _ => rfl, fun _ => not_mem_nil, nofun⟩

/-- An attribute is missing, or the template returns its own one. -/
theorem get_cases (tmpl : TemplateValues) (type : Nat) :
    Missing tmpl type ∧ (templateAttributeGetNonEmpty tmpl type).1 ≠ .ok ∨ ¬ Missing tmpl type ∧
        templateAttributeGetNonEmpty tmpl type = (.ok, some (.ofTemplate type)) := by
  unfold Missing templateAttributeGetNonEmpty
  split
  · exact .inl ⟨rfl, nofun⟩
  · exact .inl ⟨rfl, nofun⟩
  · exact .inr ⟨nofun, rfl⟩

/-- Only a missing attribute is an error. -/
theorem get_eq_ok_iff : (templateAttributeGetNonEmpty tmpl type).1 = .ok ↔ ¬ Missing tmpl type := by
  obtain ⟨hmissing, hne⟩ | ⟨hmissing, heq⟩ := get_cases tmpl type
  · exact iff_of_false hne (not_not_intro hmissing)
  · rw [heq]
    exact iff_of_true rfl hmissing

/-! ### Building and freeing -/

/-- The attributes `done` have been built, `rest` have not, and nothing else has changed. -/
structure BuiltFrom (var : Nat → Option AttrPtr) (done rest : List Nat) (m : AttrMemory)
    (ptrs : List (Option AttrPtr)) (m' : AttrMemory) : Prop where
  ptrs : ptrs.reduceOption = done.map .built ++ rest.filterMap var
  allocated : m'.allocated = m.allocated ++ done.map .built
  value : ∀ type, m'.value (.ofTemplate type) = m.value (.ofTemplate type)
  freed : m'.freed = m.freed

/-- Nothing has been built yet. -/
theorem BuiltFrom.nil : BuiltFrom var [] rest m (rest.map var) m :=
  ⟨filterMap_map, (append_nil _).symm, fun _ => rfl, rfl⟩

/-- The attributes are built up to the first one that fails. -/
theorem buildCrt_spec (crt : Nat → Except CkRv (List UInt8)) :
    BuiltFrom var (types.takeWhile fun type => (crt type).isOk)
      (types.dropWhile fun type => (crt type).isOk) m
      (buildCrt crt var types m).2.1 (buildCrt crt var types m).2.2 := by
  induction types generalizing m with
  | nil => exact .nil
  | cons type types ih =>
    rw [buildCrt, takeWhile_cons, dropWhile_cons]
    cases crt type with
    | error rc => exact .nil
    | ok bytes =>
      have h := ih (m := m.allocate type bytes)
      refine ⟨congrArg (_ :: ·) h.ptrs, ?_, fun t => ?_, h.freed⟩
      · exact h.allocated.trans (append_assoc _ _ _)
      · rw [h.value]
        exact Function.update_of_ne (show AttrPtr.ofTemplate t ≠ .built type by nofun) bytes _

/-- Everything that is there is freed, and nothing else changes. -/
theorem releaseAll_spec (ptrs : List (Option AttrPtr)) (m : AttrMemory) :
    (releaseAll ptrs m).freed = m.freed ++ ptrs.reduceOption ∧
      (releaseAll ptrs m).allocated = m.allocated ∧
      ∀ p ∉ ptrs.reduceOption, (releaseAll ptrs m).value p = m.value p := by
  unfold releaseAll
  induction ptrs.reduceOption generalizing m with
  | nil => exact ⟨(append_nil _).symm, rfl, fun _ _ => rfl⟩
  | cons q ps ih =>
    obtain ⟨hfreed, hallocated, hvalue⟩ := ih (m.release q)
    refine ⟨hfreed.trans (append_assoc _ _ _), hallocated, fun p hp => ?_⟩
    rw [mem_cons, not_or] at hp
    exact (hvalue p hp.2).trans (Function.update_of_ne hp.1 _ _)

/-- The clean-up is harmless exactly if no attribute of the template stands for one that has not
been built. -/
theorem wrapHarmless_releaseAll_iff (hnodup : done.Nodup)
    (h : BuiltFrom (fun type => (templateAttributeGetNonEmpty tmpl type).2) done rest
      (.initial tmpl)
      ptrs m) :
    WrapHarmless tmpl (releaseAll ptrs m) ↔ ∀ type ∈ rest, Missing tmpl type := by
  obtain ⟨hfreed, hallocated, hvalue⟩ := releaseAll_spec ptrs m
  rw [h.ptrs] at hfreed hvalue
  rw [h.freed] at hfreed
  constructor
  · intro hsafe type htype
    by_contra hmissing
    refine hsafe.owned type ?_
    rw [hfreed]
    refine mem_append_right _ (mem_append_right _ ?_)
    refine mem_filterMap.mpr ⟨type, htype, ?_⟩
    obtain ⟨h', -⟩ | ⟨-, heq⟩ := get_cases tmpl type
    · exact absurd h' hmissing
    · rw [heq]
  · intro hmissing
    -- Only attributes that have been built are freed.
    rw [filterMap_eq_nil_iff.mpr hmissing, append_nil] at hfreed hvalue
    have howned : ∀ type, AttrPtr.ofTemplate type ∉ done.map .built := by simp
    refine ⟨fun type => ?_, fun type => ?_, fun p hp => ?_⟩
    · exact (hvalue _ (howned type)).trans (h.value type)
    · rw [hfreed]
      exact howned type
    · rw [hallocated, h.allocated] at hp
      rw [hfreed]
      exact count_eq_one_of_mem (hnodup.map fun _ _ => AttrPtr.built.inj) hp

/-! ### The whole function -/

/-- Wrapping leaves the key as it is, and frees what it has built, unless it has to calculate
attributes, gets to the clean-up, and has not built one of those that the template has. -/
theorem rsaPrivWrapGetData_harmless_iff {δ : Type} (tmpl : TemplateValues) (bnCtx : Bool)
    (crt : Nat → Except CkRv (List UInt8)) (encode : List (List UInt8) → Except CkRv δ) :
    WrapHarmless tmpl (rsaPrivWrapGetData tmpl bnCtx crt encode).2 ↔
      (∃ type ∈ requiredTypes, Missing tmpl type) ∨ (∀ type ∈ crtTypes, ¬ Missing tmpl type) ∨
        bnCtx = false ∨ ∀ type ∈ unbuilt crt, Missing tmpl type := by
  unfold rsaPrivWrapGetData
  dsimp only
  split
  · next type hfind =>
    refine iff_of_true wrapHarmless_initial (.inl ⟨type, mem_of_find?_eq_some hfind, ?_⟩)
    have hrc := find?_some hfind
    exact not_not.mp fun hnot => of_decide_eq_true hrc (get_eq_ok_iff.mpr hnot)
  · next hfind =>
    have hrequired : ¬ ∃ type ∈ requiredTypes, Missing tmpl type := by
      rintro ⟨type, htype, hmissing⟩
      refine find?_eq_none.mp hfind type htype ?_
      exact decide_eq_true fun hok => get_eq_ok_iff.mp hok hmissing
    rw [or_iff_right hrequired]
    split
    · next hnone =>
      obtain ⟨type, htype, hget⟩ := mem_map.mp hnone
      rw [or_iff_right fun hpresent => hpresent type htype hget]
      by_cases hctx : bnCtx = false
      · rw [calcCrtAttributes, if_pos hctx]
        exact iff_of_true wrapHarmless_initial (.inl hctx)
      rw [or_iff_right hctx, calcCrtAttributes, if_neg hctx]
      have hnodup : crtTypes.Nodup := by decide
      refine .trans ?_
        (wrapHarmless_releaseAll_iff (hnodup.sublist (takeWhile_sublist _)) (buildCrt_spec crt))
      -- Whether the calculation fails or not, what it has built is freed.
      obtain ⟨rc | _, ptrs, m⟩ := buildCrt crt _ crtTypes (.initial tmpl)
      · rfl
      · rfl
    · next hnone =>
      refine iff_of_true wrapHarmless_initial (.inl fun type htype hmissing => hnone ?_)
      exact mem_map.mpr ⟨type, htype, hmissing⟩

/-- A template with the first prime and without the other CRT attributes. -/
def firstPrimeOnly (type : Nat) : Option (List UInt8) :=
  if type ∈ CKA_PRIME_1 :: requiredTypes then some [2] else none

/-- If the calculation fails for it, the first prime of the key is freed. -/
theorem not_wrapHarmless_firstPrimeOnly :
    ¬ WrapHarmless firstPrimeOnly
      (rsaPrivWrapGetData firstPrimeOnly true (fun _ => .error .functionFailed)
        fun _ => .ok ()).2 :=
  fun h => h.owned CKA_PRIME_1 (by decide)

end OpenCryptoki.Proofs.Common
