import Mathlib.Algebra.Order.Ring.Nat
import Mathlib.Order.Interval.Finset.Nat

/-!
# `OpenCryptoki.Lib.HandleTable`: a finite map with recycled keys

A handle table maps numbers from 1 on to values. A new value gets the handle that was
removed last, and when there is none it gets the next number that was never used. The
structure carries what makes this work: the free list has no duplicates, and it holds
exactly the handles that were issued and have no value.
-/

set_option autoImplicit false

namespace OpenCryptoki.Lib

open List

universe u

/-- A finite map from handles to values. `size` is the number of handles that were ever
issued, and `free` has the removed ones, the last one first. -/
structure HandleTable (V : Type u) where
  size : Nat
  get : Nat → Option V
  free : List Nat
  free_nodup : free.Nodup
  mem_free_iff : ∀ h, h ∈ free ↔ (0 < h ∧ h ≤ size) ∧ get h = none
  get_eq_none : ∀ h, ¬ (0 < h ∧ h ≤ size) → get h = none

namespace HandleTable

variable {V : Type u} (T : HandleTable V)

/-- The table without handles. -/
def empty : HandleTable V where
  size := 0
  get _ := none
  free := []
  free_nodup := List.nodup_nil
  mem_free_iff h := by
    simp only [List.not_mem_nil, false_iff, not_and]
    omega
  get_eq_none _ _ := rfl

/-- The handles that have a value. -/
def live : Finset Nat :=
  (Finset.Icc 1 T.size).filter fun h => (T.get h).isSome

/-- The handle of the next value. -/
def nextHandle : Nat :=
  T.free.headD (T.size + 1)

/-- A handle is live when it is in use. -/
theorem mem_live_iff (h : Nat) : h ∈ T.live ↔ (T.get h).isSome := by
  rw [live, Finset.mem_filter, Finset.mem_Icc, and_iff_right_iff_imp]
  intro hsome
  by_contra hout
  rw [T.get_eq_none h hout] at hsome
  cases hsome

/-- The first free handle was issued and has no value. -/
theorem of_free_eq_cons {f : Nat} {fs : List Nat} (hfree : T.free = f :: fs) :
    (0 < f ∧ f ≤ T.size) ∧ T.get f = none :=
  (T.mem_free_iff f).mp (by rw [hfree]; exact mem_cons_self)

/-- The next handle is not in use. -/
theorem get_nextHandle : T.get T.nextHandle = none := by
  rw [nextHandle]
  cases hfree : T.free with
  | nil => exact T.get_eq_none _ fun h => Nat.not_succ_le_self _ h.2
  | cons f fs => exact (T.of_free_eq_cons hfree).2

/-- A new value gets a handle that is not in use. -/
theorem nextHandle_notMem_live : T.nextHandle ∉ T.live := by
  rw [mem_live_iff, get_nextHandle]
  exact Bool.false_ne_true

/-- Handles start at 1. -/
theorem nextHandle_pos : 0 < T.nextHandle := by
  rw [nextHandle]
  cases hfree : T.free with
  | nil => exact Nat.succ_pos _
  | cons f fs => exact (T.of_free_eq_cons hfree).1.1

/-- Enter a value under the next handle. -/
def add (v : V) : HandleTable V where
  size := max T.size T.nextHandle
  get := Function.update T.get T.nextHandle (some v)
  free := T.free.tail
  free_nodup := T.free_nodup.tail
  mem_free_iff h := by
    have hnodup := T.free_nodup
    have hmem := T.mem_free_iff
    rw [nextHandle]
    cases hfree : T.free with
    | nil =>
      rw [hfree] at hmem
      by_cases hh : h = T.size + 1
      · simp [hh]
      · have hle : h ≤ max T.size (T.size + 1) ↔ h ≤ T.size := by omega
        simp only [List.tail_nil, List.headD_nil, Function.update_of_ne hh, hle]
        exact hmem h
    | cons f fs =>
      rw [hfree] at hnodup hmem
      have hf := (hmem f).mp List.mem_cons_self
      rw [List.tail_cons, List.headD_cons, max_eq_left hf.1.2]
      by_cases hh : h = f
      · subst hh
        simp [(List.nodup_cons.mp hnodup).1]
      · rw [Function.update_of_ne hh, ← hmem h, List.mem_cons]
        simp [hh]
  get_eq_none h hout := by
    have hne : h ≠ T.nextHandle := by
      rintro rfl
      exact hout ⟨T.nextHandle_pos, le_max_right _ _⟩
    rw [Function.update_of_ne hne]
    exact T.get_eq_none h fun hin => hout ⟨hin.1, le_max_of_le_left hin.2⟩

/-- Remove the value of a handle that is in use. -/
def erase (h : Nat) (hlive : (T.get h).isSome) : HandleTable V where
  size := T.size
  get := Function.update T.get h none
  free := h :: T.free
  free_nodup := by
    refine List.nodup_cons.mpr ⟨fun hmem => ?_, T.free_nodup⟩
    rw [((T.mem_free_iff h).mp hmem).2] at hlive
    cases hlive
  mem_free_iff k := by
    by_cases hk : k = h
    · subst hk
      have hin := (Finset.mem_filter.mp ((T.mem_live_iff k).mpr hlive)).1
      simpa [Nat.succ_le_iff] using hin
    · rw [List.mem_cons, Function.update_of_ne hk, T.mem_free_iff]
      simp [hk]
  get_eq_none k hout := by
    by_cases hk : k = h
    · rw [hk, Function.update_self]
    · rw [Function.update_of_ne hk]
      exact T.get_eq_none k hout

/-- Remove the value of a handle. A handle that is not in use is ignored. -/
def remove (h : Nat) : HandleTable V :=
  if hlive : (T.get h).isSome then T.erase h hlive else T

/-- A new value when no handle is free. -/
theorem add_of_free_eq_nil (hfree : T.free = []) (v : V) :
    T.nextHandle = T.size + 1 ∧ (T.add v).size = T.size + 1 ∧ (T.add v).free = [] := by
  have hnext : T.nextHandle = T.size + 1 := by rw [nextHandle, hfree]; rfl
  refine ⟨hnext, ?_, congrArg List.tail hfree⟩
  change max T.size T.nextHandle = T.size + 1
  rw [hnext]
  omega

/-- An addition changes the next handle only. -/
theorem get_add (v : V) (h : Nat) :
    (T.add v).get h = if h = T.nextHandle then some v else T.get h :=
  Function.update_apply _ _ _ _

/-- A removal changes its handle only. -/
theorem get_remove (h k : Nat) : (T.remove h).get k = if k = h then none else T.get k := by
  rw [remove]
  split
  · exact Function.update_apply _ _ _ _
  · rename_i hnone
    split
    · rename_i heq
      rw [heq]
      exact Option.not_isSome_iff_eq_none.mp hnone
    · rfl

/-- The free handles are among those handed out. -/
theorem free_subset : T.free.toFinset ⊆ Finset.Icc 1 T.size := by
  intro h hh
  exact Finset.mem_Icc.mpr ((T.mem_free_iff h).mp (mem_toFinset.mp hh)).1

/-- There are no more free handles than handed out. -/
theorem length_free_le : T.free.length ≤ T.size := by
  have hcard := Finset.card_le_card T.free_subset
  rwa [toFinset_card_of_nodup T.free_nodup, Nat.card_Icc, Nat.add_sub_cancel] at hcard

/-- The handles in use are those that were issued and are not on the free list. -/
theorem card_live : T.live.card = T.size - T.free.length := by
  have hlive : T.live = Finset.Icc 1 T.size \ T.free.toFinset := by
    ext h
    rw [live, Finset.mem_filter, Finset.mem_sdiff, mem_toFinset, T.mem_free_iff,
      Finset.mem_Icc, Option.isSome_iff_ne_none]
    exact and_congr_right fun hin => by simp [Nat.lt_of_succ_le hin.1, hin.2]
  rw [hlive, Finset.card_sdiff_of_subset T.free_subset, Nat.card_Icc,
    toFinset_card_of_nodup T.free_nodup, Nat.add_sub_cancel]

/-! ### The handles of a value -/

section Count

variable [DecidableEq V]

/-- The handles of a value. -/
def handlesOf (v : V) : Finset Nat :=
  T.live.filter fun h => T.get h = some v

/-- The handles of a value are those that lead to it. -/
theorem mem_handlesOf_iff (v : V) (h : Nat) : h ∈ T.handlesOf v ↔ T.get h = some v := by
  rw [handlesOf, Finset.mem_filter, mem_live_iff, and_iff_right_iff_imp]
  intro hget
  rw [hget]
  rfl

/-- How many handles a value has. -/
def count (v : V) : Nat :=
  (T.handlesOf v).card

/-- A value is counted when some handle leads to it. -/
theorem count_pos_iff (v : V) : 0 < T.count v ↔ ∃ h, T.get h = some v := by
  rw [count, Finset.card_pos, Finset.Nonempty]
  exact exists_congr fun h => T.mem_handlesOf_iff v h

/-- An addition counts its value once more. -/
theorem count_add_self (v : V) : (T.add v).count v = T.count v + 1 := by
  have hinsert : (T.add v).handlesOf v = insert T.nextHandle (T.handlesOf v) := by
    ext h
    rw [Finset.mem_insert, mem_handlesOf_iff, mem_handlesOf_iff, get_add]
    by_cases hh : h = T.nextHandle <;> simp [hh]
  rw [count, hinsert, Finset.card_insert_of_notMem, count]
  rw [mem_handlesOf_iff, get_nextHandle]
  exact nofun

/-- An addition does not count the other values. -/
theorem count_add_of_ne {v w : V} (h : w ≠ v) : (T.add w).count v = T.count v := by
  have hsame : (T.add w).handlesOf v = T.handlesOf v := by
    ext k
    rw [mem_handlesOf_iff, mem_handlesOf_iff, get_add]
    split
    · rename_i hk
      rw [hk, get_nextHandle]
      simp [h]
    · rfl
  rw [count, hsame, count]

/-- A removal counts its value once less. -/
theorem count_remove_self {h : Nat} {v : V} (hget : T.get h = some v) :
    (T.remove h).count v + 1 = T.count v := by
  have herase : (T.remove h).handlesOf v = (T.handlesOf v).erase h := by
    ext k
    rw [Finset.mem_erase, mem_handlesOf_iff, mem_handlesOf_iff, get_remove]
    by_cases hk : k = h <;> simp [hk]
  rw [count, herase, Finset.card_erase_add_one ((T.mem_handlesOf_iff v h).mpr hget), count]

/-- A removal does not count the other values. -/
theorem count_remove_of_ne {h : Nat} {v w : V} (hget : T.get h = some w) (hne : w ≠ v) :
    (T.remove h).count v = T.count v := by
  have hsame : (T.remove h).handlesOf v = T.handlesOf v := by
    ext k
    rw [mem_handlesOf_iff, mem_handlesOf_iff, get_remove]
    split
    · rename_i hk
      rw [hk, hget]
      simp [hne]
    · rfl
  rw [count, hsame, count]

end Count

end HandleTable

end OpenCryptoki.Lib
