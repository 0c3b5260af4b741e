import Mathlib.Algebra.Order.Ring.Nat
import Mathlib.Algebra.BigOperators.Group.Finset.Basic
import Mathlib.Order.Bounds.Basic

/-!
# `OpenCryptoki.Lib.Run`: schedules of a step function

A concurrent system is a partial step function `step : σ → α → Option σ`. The action
`α` names the party that moves and the choices it makes, and `none` says that the action
is not enabled. `exec` runs a schedule, which is a list of actions. A property of every
interleaving is a property of every schedule.

`exec_invariant` is the induction on a schedule, done once: what holds initially and is
kept by every step holds after every schedule. Some properties hold only along schedules
whose steps meet a condition on the state before the step. `Guarded` states that
condition for a whole schedule, and `exec_invariant_guarded` is the same rule for it.
`guarded_iff` compares two such conditions.

`trace` lists the states that a schedule passes through. A field of the state that follows
the greatest value of another field step by step is the greatest value that field had in
the trace (`isGreatest_trace`). All states of a trace have a property exactly if every step keeps
it (`forall_trace_iff`).

A number that is summed over all parties changes by the share of the party that moves
(`sum_add_of_agree`).
-/

set_option autoImplicit false

namespace OpenCryptoki.Lib

open List

universe u v

variable {σ : Type u} {α : Type v}

/-- Run a schedule from a state. The result is `none` when some action of the schedule
is not enabled at its turn. -/
def exec (step : σ → α → Option σ) : σ → List α → Option σ
  | s, []      => some s
  | s, a :: as => (step s a).bind fun s' => exec step s' as

/-- Every action of the schedule meets `guard` in the state in which it is taken. -/
def Guarded (step : σ → α → Option σ) (guard : σ → α → Prop) : σ → List α → Prop
  | _, []      => True
  | s, a :: as => guard s a ∧ ∀ s', step s a = some s' → Guarded step guard s' as

/-- Guards that can be decided can be decided along a run. -/
instance decidableGuarded (step : σ → α → Option σ) (guard : σ → α → Prop)
    [∀ s a, Decidable (guard s a)] : ∀ s as, Decidable (Guarded step guard s as)
  | _, []      => isTrue trivial
  | s, a :: as =>
      have : DecidablePred fun s' => Guarded step guard s' as :=
        fun s' => decidableGuarded step guard s' as
      inferInstanceAs (Decidable (guard s a ∧ ∀ s' ∈ step s a, Guarded step guard s' as))

/-- The empty run. -/
@[simp] theorem exec_nil (step : σ → α → Option σ) (s : σ) : exec step s [] = some s := rfl

/-- A run is its first step and the run of the others. -/
theorem exec_cons (step : σ → α → Option σ) (s : σ) (a : α) (as : List α) :
    exec step s (a :: as) = (step s a).bind fun s' => exec step s' as := rfl

variable {step : σ → α → Option σ} {s t : σ} {a : α} {as : List α} {guard R Q : σ → α → Prop}
  {I G : σ → Prop} {N : Type*}

/-- A schedule that starts with `a` takes the step `a` and then runs the rest. -/
theorem exec_cons_eq_some :
    exec step s (a :: as) = some t ↔ ∃ s', step s a = some s' ∧ exec step s' as = some t := by
  rw [exec_cons, Option.bind_eq_some_iff]

/-- Two schedules in a row are one schedule. -/
theorem exec_append (step : σ → α → Option σ) (s : σ) (as bs : List α) :
    exec step s (as ++ bs) = (exec step s as).bind fun s' => exec step s' bs := by
  induction as generalizing s with
  | nil => rfl
  | cons a as ih =>
    rw [cons_append, exec_cons, exec_cons]
    cases step s a with
    | none => rfl
    | some s' => exact ih s'

/-- A condition on the actions only holds for a schedule if it holds for its actions. -/
theorem guarded_of_mem (h : ∀ a ∈ as, ∀ s, guard s a) : Guarded step guard s as := by
  induction as generalizing s with
  | nil => trivial
  | cons a as ih =>
    exact ⟨h a mem_cons_self s, fun _ _ => ih fun b hb => h b (mem_cons_of_mem a hb)⟩

/-- The invariant rule for guarded schedules. -/
theorem exec_invariant_guarded (hstep : ∀ s a s', I s → guard s a → step s a = some s' → I s') :
    ∀ {as : List α} {s t : σ}, I s → Guarded step guard s as → exec step s as = some t → I t := by
  intro as
  induction as with
  | nil =>
    intro s t hs _ h
    cases h
    exact hs
  | cons a as ih =>
    intro s t hs hg h
    obtain ⟨s', hs', ht⟩ := exec_cons_eq_some.mp h
    exact ih (hstep s a s' hs hg.1 hs') (hg.2 s' hs') ht

/-- If an invariant makes two conditions equivalent, and is kept by every step that meets the second
one, then a schedule meets the first condition exactly if it meets the second one. The condition
`R` is an assumption about the schedule. -/
theorem guarded_iff {P : σ → α → Prop} (hiff : ∀ s a, I s → R s a → (P s a ↔ Q s a))
    (hstep : ∀ s a s', I s → R s a → Q s a → step s a = some s' → I s') :
    ∀ {as : List α} {s : σ}, I s → Guarded step R s as →
      (Guarded step P s as ↔ Guarded step Q s as) := by
  intro as
  induction as with
  | nil => exact fun _ _ => Iff.rfl
  | cons a as ih =>
    intro s hs hR
    have hhead := hiff s a hs hR.1
    constructor
    · intro h
      refine ⟨hhead.mp h.1, fun s' hs' => ?_⟩
      exact (ih (hstep s a s' hs hR.1 (hhead.mp h.1) hs') (hR.2 s' hs')).mp (h.2 s' hs')
    · intro h
      refine ⟨hhead.mpr h.1, fun s' hs' => ?_⟩
      exact (ih (hstep s a s' hs hR.1 h.1 hs') (hR.2 s' hs')).mpr (h.2 s' hs')

/-- The invariant rule: what every step keeps holds after every schedule. -/
theorem exec_invariant (hstep : ∀ s a s', I s → step s a = some s' → I s') :
    ∀ {as : List α} {s t : σ}, I s → exec step s as = some t → I t := by
  intro as s t hs
  have hg : Guarded step (fun _ _ => True) s as := guarded_of_mem fun _ _ _ => trivial
  exact exec_invariant_guarded (fun s a s' hs _ => hstep s a s' hs) hs hg

/-! ### The states of a run -/

/-- The states that a schedule passes through, from the first to the last one. -/
def trace (step : σ → α → Option σ) : σ → List α → List σ
  | s, []      => [s]
  | s, a :: as =>
      s :: match step s a with
        | some s' => trace step s' as
        | none    => []

/-- A run passes its first state. -/
theorem mem_trace_self (step : σ → α → Option σ) (s : σ) (as : List α) : s ∈ trace step s as := by
  cases as <;> exact mem_cons_self

/-- The states behind a step that is done. -/
theorem trace_cons {s' : σ} (h : step s a = some s') :
    trace step s (a :: as) = s :: trace step s' as := by
  simp only [trace, h]

/-- A run passes its last state. -/
theorem mem_trace_of_exec : ∀ {s t : σ}, exec step s as = some t → t ∈ trace step s as := by
  induction as with
  | nil =>
    intro s t h
    cases h
    exact mem_cons_self
  | cons a as ih =>
    intro s t h
    obtain ⟨s', hs', ht⟩ := exec_cons_eq_some.mp h
    rw [trace_cons hs']
    exact mem_cons_of_mem _ (ih ht)

/-- Suppose that a step under the condition `Q` keeps an invariant, and that `G` after a step needs
`Q`. Then all states of a schedule have `G` exactly if all its steps meet `Q`. The condition `R` is
an assumption about the schedule. -/
theorem forall_trace_iff_of_invariant (hG : ∀ s, I s → G s) (hnone : ∀ s a, step s a = none → Q s a)
    (hkeep : ∀ s a s', I s → R s a → Q s a → step s a = some s' → I s')
    (hneed : ∀ s a s', I s → R s a → step s a = some s' → G s' → Q s a) :
    ∀ {as : List α} {s : σ}, I s → Guarded step R s as →
      ((∀ u ∈ trace step s as, G u) ↔ Guarded step Q s as) := by
  intro as
  induction as with
  | nil =>
    intro s hs _
    refine iff_of_true (fun u hu => ?_) trivial
    rw [mem_singleton.mp hu]
    exact hG s hs
  | cons a as ih =>
    intro s hs hR
    cases hsa : step s a with
    -- The run stops here, so its only state is `s` and no later action is asked about.
    | none =>
      have htrace : trace step s (a :: as) = [s] := by simp only [trace, hsa]
      rw [htrace]
      refine iff_of_true (fun u hu => ?_) ⟨hnone s a hsa, fun s' hs' => ?_⟩
      · rw [mem_singleton.mp hu]
        exact hG s hs
      · rw [hsa] at hs'
        cases hs'
    | some s' =>
      rw [trace_cons hsa]
      constructor
      -- The next state is good, so `Q` held of this action and the invariant goes on.
      · intro h
        have hQ := hneed s a s' hs hR.1 hsa (h s' (mem_cons_of_mem _ (mem_trace_self _ _ _)))
        refine ⟨hQ, fun s'' hs'' => ?_⟩
        rw [hsa] at hs''
        cases hs''
        exact (ih (hkeep s a s' hs hR.1 hQ hsa) (hR.2 s' hsa)).mp fun u hu =>
          h u (mem_cons_of_mem _ hu)
      · intro h u hu
        rcases mem_cons.mp hu with rfl | hu
        · exact hG u hs
        · exact (ih (hkeep s a s' hs hR.1 h.1 hsa) (hR.2 s' hsa)).mpr (h.2 s' hsa) u hu

/-- If a step keeps `G` exactly under the condition `Q`, then all states of a schedule have `G`
exactly if all its steps meet `Q`. -/
theorem forall_trace_iff (hnone : ∀ s a, step s a = none → Q s a)
    (hstep : ∀ s a s', G s → step s a = some s' → (G s' ↔ Q s a)) (hs : G s) :
    (∀ u ∈ trace step s as, G u) ↔ Guarded step Q s as :=
  forall_trace_iff_of_invariant (R := fun _ _ => True) (fun _ h => h) hnone
    (fun s a s' hs _ hQ hsa => (hstep s a s' hs hsa).mpr hQ)
    (fun s a s' hs _ hsa => (hstep s a s' hs hsa).mp) hs
    (guarded_of_mem fun _ _ _ => trivial)

section
variable [LinearOrder N] {peak f : σ → N}
  (hstep : ∀ s a s', I s → step s a = some s' → I s' ∧ peak s' = max (peak s) (f s'))
include hstep

/-- If every step raises `peak` to the new value of `f` when that is greater, then `peak` at
the end is the greatest of its value at the start and of the values of `f` on the way. -/
theorem isGreatest_trace_insert :
    ∀ {as : List α} {s t : σ}, I s → f s ≤ peak s → exec step s as = some t →
      IsGreatest (insert (peak s) {n | ∃ u ∈ trace step s as, f u = n}) (peak t) := by
  intro as
  induction as with
  | nil =>
    intro s t _ hle h
    cases h
    refine ⟨Set.mem_insert _ _, ?_⟩
    rintro n (rfl | ⟨u, hu, rfl⟩)
    · exact le_refl _
    · rw [mem_singleton.mp hu]
      exact hle
  | cons a as ih =>
    intro s t hs hle h
    obtain ⟨s', hs', ht⟩ := exec_cons_eq_some.mp h
    obtain ⟨hI, hpeak⟩ := hstep s a s' hs hs'
    obtain ⟨hmem, hub⟩ := ih hI (hpeak ▸ le_max_right _ _) ht
    have hmono : peak s ≤ peak t :=
      le_trans (hpeak ▸ le_max_left _ _) (hub (Set.mem_insert _ _))
    rw [trace_cons hs']
    constructor
    · rcases hmem with hmem | ⟨u, hu, hmem⟩
      · -- The value at the end is that after the first step: the old one or that of `s'`.
        rcases max_choice (peak s) (f s') with hmax | hmax
        · exact .inl (hmem.trans (hpeak.trans hmax))
        · exact .inr ⟨s', mem_cons_of_mem _ (mem_trace_self _ _ _),
            (hmem.trans (hpeak.trans hmax)).symm⟩
      · exact .inr ⟨u, mem_cons_of_mem _ hu, hmem⟩
    · rintro n (rfl | ⟨u, hu, rfl⟩)
      · exact hmono
      · rcases mem_cons.mp hu with rfl | hu
        · exact le_trans hle hmono
        · exact hub (.inr ⟨u, hu, rfl⟩)

/-- The rule for a running maximum that starts as the value of `f`. -/
theorem isGreatest_trace (hs : I s) (hstart : peak s = f s) (h : exec step s as = some t) :
    IsGreatest {n | ∃ u ∈ trace step s as, f u = n} (peak t) := by
  have hfirst : f s ∈ {n | ∃ u ∈ trace step s as, f u = n} :=
    ⟨s, mem_trace_self _ _ _, rfl⟩
  have hgreatest := isGreatest_trace_insert hstep hs (le_of_eq hstart.symm) h
  rwa [hstart, Set.insert_eq_of_mem hfirst] at hgreatest

end

/-! ### Sums over the parties -/

/-- If `g` agrees with `f` except at `i`, then the sums differ by what they have at `i`. -/
theorem sum_add_of_agree {ι : Type*} [Fintype ι] [DecidableEq ι] {f g : ι → Nat} {i : ι}
    (h : ∀ j, j ≠ i → g j = f j) : (∑ j, g j) + f i = (∑ j, f j) + g i := by
  have hf := Finset.add_sum_erase Finset.univ f (Finset.mem_univ i)
  have hg := Finset.add_sum_erase Finset.univ g (Finset.mem_univ i)
  have hrest : ∑ j ∈ Finset.univ.erase i, g j = ∑ j ∈ Finset.univ.erase i, f j :=
    Finset.sum_congr rfl fun j hj => h j (Finset.ne_of_mem_erase hj)
  omega

end OpenCryptoki.Lib
