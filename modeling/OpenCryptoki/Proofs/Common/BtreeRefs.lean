import Mathlib.Algebra.Order.BigOperators.Group.Finset
import OpenCryptoki.Common.BtreeRefs
import OpenCryptoki.Lib.Run
import OpenCryptoki.Proofs.Common.Btree

/-!
# `OpenCryptoki.Proofs.Common.BtreeRefs`: a value is deleted once, after its last use

The reference count of a value is the number of references to it: one for each handle that
the tree has for it, one for each time that a thread obtained it and has not put it, and one
for each `bt_put_node_value` that has not decremented the count yet (`RefInv.count`). The
reference of the tree passes to the thread that frees the node.

A decrement to zero sends its thread to `delete_func`, and no other step does. Since the count
of a value that has references is positive, this happens once, and from then on there are no
references (`RefInv.once`).
-/

set_option autoImplicit false

namespace OpenCryptoki.Proofs.Common

open Lib OpenCryptoki.Common

variable {P : Type}

/-! ### The references of the threads -/

/-- Whether a thread is to decrement the count of `v`. -/
def pending (v : Nat) : PutPc → Nat
  | .check w | .sub w => if w = v then 1 else 0
  | .idle | .delete _ => 0

/-- Whether a thread is to call `delete_func` for `v`. -/
def deleting (v : Nat) : PutPc → Nat
  | .delete w => if w = v then 1 else 0
  | .idle | .check _ | .sub _ => 0

/-- The references that a thread has to `v`. -/
def refsOf (s : RefSys P) (p : P) (v : Nat) : Nat :=
  (s.held p).count v + pending v (s.pc p)

structure RefInv [Fintype P] (s : RefSys P) (T : HandleTable Nat) : Prop where
  rep : Represents s.tree T
  count : ∀ v, s.ref v = T.count v + ∑ p, refsOf s p v
  unused : ∀ v, s.nextValue ≤ v → s.ref v = 0
  once : ∀ v, v < s.nextValue → s.ref v = 0 → s.deleted v + ∑ p, deleting v (s.pc p) = 1
  live : ∀ v, s.nextValue ≤ v ∨ 0 < s.ref v → s.deleted v + ∑ p, deleting v (s.pc p) = 0

/-- The invariant holds for the empty tree. -/
theorem RefInv.init [Fintype P] : RefInv (RefSys.init P) HandleTable.empty where
  rep := represents_init
  count v := by simp [RefSys.init, refsOf, pending, HandleTable.count, HandleTable.handlesOf,
    HandleTable.live, HandleTable.empty]
  unused _ _ := rfl
  once v hlt := absurd hlt (Nat.not_lt_zero v)
  live v _ := by simp [RefSys.init, deleting]

/-- Only thread `p` differs. -/
structure Moves (p : P) (s s' : RefSys P) : Prop where
  held : ∀ q, q ≠ p → s'.held q = s.held q
  pc : ∀ q, q ≠ p → s'.pc q = s.pc q

/-- One count is changed. -/
theorem ref_setRef (s : RefSys P) (w ref v : Nat) :
    (s.setRef w ref).ref v = if v = w then ref else s.ref v :=
  Function.update_apply _ _ _ _

variable {s : RefSys P} {T : HandleTable Nat}

/-- A thread's references are among those that are counted. -/
theorem RefInv.refsOf_le [Fintype P] (hinv : RefInv s T) (p : P) (v : Nat) :
    refsOf s p v ≤ s.ref v := by
  have hle := Finset.single_le_sum (f := fun q => refsOf s q v) (fun _ _ => zero_le)
    (Finset.mem_univ p)
  rw [hinv.count v]
  exact hle.trans (le_add_self)

/-- A value in the tree is counted. -/
theorem RefInv.ref_pos_of_get [Fintype P] (hinv : RefInv s T) {h v : Nat}
    (hget : T.get h = some v) : 0 < s.ref v := by
  have hpos := (T.count_pos_iff v).mpr ⟨h, hget⟩
  rw [hinv.count v]
  omega

/-! ### One step -/

/-- A new value has one reference, that of the tree. -/
theorem RefInv.add [Fintype P] {s' : RefSys P} (hinv : RefInv s T) (h : s.add = some s') :
    RefInv s' (T.add s.nextValue) := by
  obtain ⟨t, hadd, hrep⟩ := hinv.rep.btNodeAdd s.nextValue
  rw [RefSys.add, hadd] at h
  cases h
  have hunused := hinv.unused s.nextValue le_rfl
  refine ⟨hrep, fun v => ?_, fun v hv => ?_, fun v hlt hzero => ?_, fun v hv => ?_⟩
  · have hcount := hinv.count v
    change (s.setRef s.nextValue 1).ref v = (T.add s.nextValue).count v + ∑ p, refsOf s p v
    rw [ref_setRef]
    split
    · rename_i hv
      subst hv
      rw [T.count_add_self]
      omega
    · rename_i hv
      rw [T.count_add_of_ne (Ne.symm hv), hcount]
  · change s.nextValue + 1 ≤ v at hv
    change (s.setRef s.nextValue 1).ref v = 0
    rw [ref_setRef, if_neg (by omega)]
    exact hinv.unused v (by omega)
  · change v < s.nextValue + 1 at hlt
    change (s.setRef s.nextValue 1).ref v = 0 at hzero
    rw [ref_setRef] at hzero
    have hv : v ≠ s.nextValue := fun hv => by simp [hv] at hzero
    rw [if_neg hv] at hzero
    exact hinv.once v (by omega) hzero
  · change s.nextValue + 1 ≤ v ∨ 0 < (s.setRef s.nextValue 1).ref v at hv
    rw [ref_setRef] at hv
    refine hinv.live v ?_
    by_cases heq : v = s.nextValue
    · exact .inl heq.ge
    · rw [if_neg heq] at hv
      exact hv.imp Nat.le_of_succ_le id

section Threads

variable [DecidableEq P]

section
variable (s : RefSys P) (p : P)

/-- The references of a thread that holds others now. -/
theorem refsOf_setHeld (vs : List Nat) (v : Nat) :
    refsOf (s.setHeld p vs) p v = vs.count v + pending v (s.pc p) := by
  simp [refsOf, RefSys.setHeld]

variable (pc : PutPc)

/-- The references of a thread that goes on. -/
theorem refsOf_setPc (v : Nat) : refsOf (s.setPc p pc) p v = (s.held p).count v + pending v pc := by
  simp [refsOf, RefSys.setPc]

/-- Where a thread goes on. -/
theorem pc_setPc : (s.setPc p pc).pc p = pc :=
  Function.update_self _ _ _

/-- Only one thread holds others. -/
theorem moves_setHeld (vs : List Nat) : Moves p s (s.setHeld p vs) where
  held _ hq := Function.update_of_ne hq _ _
  pc _ _ := rfl

/-- Only one thread goes on. -/
theorem moves_setPc : Moves p s (s.setPc p pc) where
  held _ _ := rfl
  pc _ hq := Function.update_of_ne hq _ _

end

variable {s s' : RefSys P} {p : P} {w : Nat} {T : HandleTable Nat}

/-- The decrement drops the reference of the put. -/
theorem refsOf_sub {pc : PutPc} (hpc : s.pc p = .sub w) (ref : Nat) (hpend : ∀ v, pending v pc = 0)
    (v : Nat) :
    refsOf ((s.setRef w ref).setPc p pc) p v + (if v = w then 1 else 0) = refsOf s p v := by
  rw [refsOf_setPc, hpend, refsOf, hpc]
  dsimp only [pending]
  simp only [eq_comm (a := w)]
  rfl

variable [Fintype P]

/-- The references change by those of the thread that moves. -/
theorem Moves.refs (h : Moves p s s') (v : Nat) :
    (∑ q, refsOf s' q v) + refsOf s p v = (∑ q, refsOf s q v) + refsOf s' p v :=
  sum_add_of_agree (f := fun q => refsOf s q v) (g := fun q => refsOf s' q v) fun q hq => by
    rw [refsOf, refsOf, h.held q hq, h.pc q hq]

/-- The deletions change by those of the thread that moves. -/
theorem Moves.deletes (h : Moves p s s') (v : Nat) :
    (∑ q, deleting v (s'.pc q)) + deleting v (s.pc p)
      = (∑ q, deleting v (s.pc q)) + deleting v (s'.pc p) :=
  sum_add_of_agree (f := fun q => deleting v (s.pc q)) (g := fun q => deleting v (s'.pc q))
    fun q hq => by rw [h.pc q hq]

/-- The invariant after a step of thread `p` that moves references but drops none, and that
does not start or end a call of `delete_func`. -/
theorem RefInv.of_moves {T' : HandleTable Nat} (hinv : RefInv s T) (hmoves : Moves p s s')
    (hrep : Represents s'.tree T') (hnext : s'.nextValue = s.nextValue)
    (hdeleted : s'.deleted = s.deleted)
    (hcount : ∀ v, s'.ref v + T.count v + refsOf s p v = s.ref v + T'.count v + refsOf s' p v)
    (hzero : ∀ v, s'.ref v = 0 ↔ s.ref v = 0)
    (hpc : ∀ v, deleting v (s'.pc p) = deleting v (s.pc p)) : RefInv s' T' := by
  have hdeletes (v : Nat) : s'.deleted v + ∑ q, deleting v (s'.pc q)
      = s.deleted v + ∑ q, deleting v (s.pc q) := by
    have hsum := hmoves.deletes v
    have hstep := hpc v
    rw [hdeleted]
    omega
  refine ⟨hrep, fun v => ?_, fun v hv => ?_, fun v hlt hz => ?_, fun v hv => ?_⟩
  · have hsum := hmoves.refs v
    have hold := hinv.count v
    have hstep := hcount v
    omega
  · exact (hzero v).mpr (hinv.unused v (hnext ▸ hv))
  · rw [hdeletes]
    exact hinv.once v (hnext ▸ hlt) ((hzero v).mp hz)
  · rw [hdeletes]
    rw [hnext, pos_iff_ne_zero, ne_eq, hzero v, ← ne_eq, ← pos_iff_ne_zero] at hv
    exact hinv.live v hv

/-- A thread that gets a value adds one reference to it. -/
theorem RefInv.get {h : Nat} (hinv : RefInv s T) (hstep : s.get p h = some s') : RefInv s' T := by
  rw [RefSys.get, hinv.rep.btGetNodeValue_eq] at hstep
  cases hstep
  cases hget : T.get h with
  | none => exact hinv
  | some w =>
    have hpos := hinv.ref_pos_of_get hget
    refine hinv.of_moves (p := p) ⟨(moves_setHeld _ p _).held, fun _ _ => rfl⟩ hinv.rep rfl rfl
      (fun v => ?_) (fun v => ?_) fun v => rfl
    · change (s.setRef w (s.ref w + 1)).ref v + T.count v + refsOf s p v = _
      rw [ref_setRef, refsOf_setHeld, refsOf, List.count_cons]
      by_cases hv : v = w
      · simp [hv, RefSys.setRef]
        omega
      · simp [hv, Ne.symm hv, RefSys.setRef]
    · change (s.setRef w (s.ref w + 1)).ref v = 0 ↔ _
      rw [ref_setRef]
      split
      · rename_i hv
        rw [hv]
        omega
      · rfl

/-- The reference of the tree passes to the thread that frees the node. -/
theorem RefInv.free {h : Nat} {put : Bool} (hinv : RefInv s T) (hidle : s.pc p = .idle)
    (hstep : s.free p h put = some s') :
    RefInv s' (T.remove h) := by
  obtain ⟨t, hfree, hrep⟩ := hinv.rep.btNodeFree h
  rw [RefSys.free, hfree] at hstep
  cases hstep
  cases hget : T.get h with
  | none =>
    have hsame : T.remove h = T := by rw [HandleTable.remove, dif_neg (by simp [hget])]
    rw [hsame] at hrep ⊢
    exact ⟨hrep, hinv.count, hinv.unused, hinv.once, hinv.live⟩
  | some w =>
    -- The handle's own reference is what the table loses.
    have hcount (v : Nat) : (T.remove h).count v + (if w = v then 1 else 0) = T.count v := by
      split
      · rename_i hv
        subst hv
        exact T.count_remove_self hget
      · rename_i hv
        exact T.count_remove_of_ne hget hv
    cases put with
    -- It becomes the reference the put is about to drop, or one that the caller holds.
    | true =>
      refine hinv.of_moves (p := p) ⟨fun _ _ => rfl, (moves_setPc s p _).pc⟩ hrep rfl rfl
        (fun v => ?_) (fun v => Iff.rfl) fun v => ?_
      · have hrefs := refsOf_setPc { s with tree := t } p (.check w) v
        have hv := hcount v
        rw [refsOf, hidle]
        dsimp only [pending] at hrefs ⊢
        rw [if_pos rfl, hrefs]
        change s.ref v + _ + _ = s.ref v + _ + _
        omega
      · have hpc := pc_setPc { s with tree := t } p (.check w)
        dsimp only
        rw [if_pos rfl, hpc, hidle]
        rfl
    | false =>
      refine hinv.of_moves (p := p) ⟨(moves_setHeld s p _).held, fun _ _ => rfl⟩ hrep rfl rfl
        (fun v => ?_) (fun v => Iff.rfl) fun v => rfl
      have hrefs := refsOf_setHeld { s with tree := t } p (w :: s.held p) v
      have hv := hcount v
      rw [List.count_cons] at hrefs
      dsimp only
      rw [if_neg Bool.false_ne_true, hrefs, refsOf]
      change s.ref v + _ + _ = s.ref v + _ + _
      simp only [beq_iff_eq]
      omega

section
variable (hinv : RefInv s T)
include hinv

/-- A thread that starts to put a value keeps its reference. -/
theorem RefInv.put (hidle : s.pc p = .idle) (hheld : w ∈ s.held p) :
    RefInv ((s.setHeld p ((s.held p).erase w)).setPc p (.check w)) T := by
  refine hinv.of_moves (p := p) ⟨(moves_setHeld s p _).held, (moves_setPc s p _).pc⟩ hinv.rep rfl
    rfl (fun v => ?_) (fun v => Iff.rfl) fun v => ?_
  · have hself : (s.setHeld p ((s.held p).erase w)).held p = (s.held p).erase w :=
      Function.update_self _ _ _
    have hpos := List.count_pos_iff.mpr hheld
    rw [refsOf_setPc, hself, refsOf, hidle, List.count_erase]
    change s.ref v + _ + _ = s.ref v + _ + _
    dsimp only [pending]
    by_cases hv : w = v
    · subst hv
      simp
      omega
    · simp [hv]
  · rw [pc_setPc, hidle]
    rfl

/-- A put finds a positive count, since its own reference is counted. -/
theorem RefInv.check (hpc : s.pc p = .check w) :
    RefInv (s.setPc p (if s.ref w > 0 then .sub w else .delete w)) T := by
  have hpos : s.ref w > 0 := by
    have hle := hinv.refsOf_le p w
    simp only [refsOf, hpc, pending, if_true] at hle
    omega
  rw [if_pos hpos]
  refine hinv.of_moves (moves_setPc s p _) hinv.rep rfl rfl (fun v => ?_) (fun v => Iff.rfl)
    fun v => ?_
  · rw [refsOf_setPc, refsOf, hpc]
    rfl
  · rw [pc_setPc, hpc]
    rfl

/-- A decrement that leaves other references. -/
theorem RefInv.sub_keep (hpc : s.pc p = .sub w) (hmany : 1 < s.ref w) :
    RefInv ((s.setRef w (s.ref w - 1)).setPc p .idle) T := by
  have href (v : Nat) := ref_setRef s w (s.ref w - 1) v
  refine hinv.of_moves (p := p) ⟨fun _ _ => rfl, (moves_setPc s p _).pc⟩ hinv.rep rfl rfl
    (fun v => ?_) (fun v => ?_) fun v => ?_
  · have hrefs := refsOf_sub hpc (s.ref w - 1) (fun v => (rfl : pending v .idle = 0)) v
    change (s.setRef w (s.ref w - 1)).ref v + _ + _ = _
    rw [href]
    split at hrefs
    · rename_i hv
      subst hv
      rw [if_pos rfl]
      omega
    · rename_i hv
      rw [if_neg hv]
      omega
  · change (s.setRef w (s.ref w - 1)).ref v = 0 ↔ _
    rw [href]
    split
    · rename_i hv
      rw [hv]
      omega
    · rfl
  · rw [pc_setPc, hpc]
    rfl

/-- The decrement of the last reference: the call of `delete_func` is due. -/
theorem RefInv.sub_last (hpc : s.pc p = .sub w) (hlast : s.ref w = 1) :
    RefInv ((s.setRef w 0).setPc p (.delete w)) T := by
  -- The value has been allocated, since it has a reference.
  have hlt : w < s.nextValue := by
    by_contra hge
    rw [hinv.unused w (not_lt.mp hge)] at hlast
    cases hlast
  -- Only `p` moves: it gives up the last reference and goes on to delete the value.
  have hmoves : Moves p s ((s.setRef w 0).setPc p (.delete w)) :=
    ⟨fun _ _ => rfl, (moves_setPc s p _).pc⟩
  have href (v : Nat) : ((s.setRef w 0).setPc p (.delete w)).ref v
      = if v = w then 0 else s.ref v := ref_setRef s w 0 v
  have hdeletes (v : Nat) : ∑ q, deleting v (((s.setRef w 0).setPc p (.delete w)).pc q)
      = (∑ q, deleting v (s.pc q)) + if w = v then 1 else 0 := by
    have hsum := hmoves.deletes v
    rw [hpc, pc_setPc] at hsum
    exact hsum
  refine ⟨hinv.rep, fun v => ?_, fun v hv => ?_, fun v hv hzero => ?_, fun v hv => ?_⟩
  · have hsum := hmoves.refs v
    have hold := hinv.count v
    have hrefs := refsOf_sub hpc 0 (fun v => (rfl : pending v (.delete w) = 0)) v
    rw [href]
    split at hrefs
    · rename_i hv
      subst hv
      rw [if_pos rfl]
      omega
    · rename_i hv
      rw [if_neg hv]
      omega
  · have hne : v ≠ w := by
      rintro rfl
      exact not_le.mpr hlt hv
    rw [href, if_neg hne]
    exact hinv.unused v hv
  -- The deletion that `p` is about to do counts for `w` and for no other value.
  · rw [hdeletes]
    change s.deleted v + (_ + _) = 1
    by_cases heq : w = v
    · subst heq
      have hlive := hinv.live w (.inr (by omega))
      rw [if_pos rfl]
      omega
    · rw [href, if_neg (Ne.symm heq)] at hzero
      rw [if_neg heq]
      exact hinv.once v hv hzero
  · have hne : w ≠ v := by
      rintro rfl
      rw [href, if_pos rfl] at hv
      exact hv.elim hlt.not_ge (lt_irrefl 0)
    rw [href, if_neg (Ne.symm hne)] at hv
    rw [hdeletes, if_neg hne]
    exact hinv.live v hv

/-- A decrement keeps the invariant, and the last one goes on to delete. -/
theorem RefInv.sub (hpc : s.pc p = .sub w) :
    RefInv ((s.setRef w (subAndFetch (s.ref w))).setPc p
      (if subAndFetch (s.ref w) = 0 then .delete w else .idle)) T := by
  have hpos : 0 < s.ref w := by
    have hle := hinv.refsOf_le p w
    simp only [refsOf, hpc, pending, if_true] at hle
    omega
  have hsub : subAndFetch (s.ref w) = s.ref w - 1 := if_neg hpos.ne'
  rw [hsub]
  by_cases hlast : s.ref w = 1
  · rw [hlast, if_pos rfl]
    exact hinv.sub_last hpc hlast
  · rw [if_neg (by omega)]
    exact hinv.sub_keep hpc (by omega)

/-- The call of `delete_func` that was due is made. -/
theorem RefInv.delete (hpc : s.pc p = .delete w) :
    RefInv { s.setPc p .idle with
      deleted := Function.update s.deleted w (s.deleted w + 1) } T := by
  have hmoves := moves_setPc s p .idle
  have htotal (v : Nat) : Function.update s.deleted w (s.deleted w + 1) v
      + ∑ q, deleting v ((s.setPc p .idle).pc q) = s.deleted v + ∑ q, deleting v (s.pc q) := by
    have hsum := hmoves.deletes v
    rw [hpc, pc_setPc] at hsum
    change _ + (if w = v then 1 else 0) = _ + 0 at hsum
    rw [Function.update_apply]
    by_cases heq : w = v
    · subst heq
      rw [if_pos rfl] at hsum ⊢
      omega
    · rw [if_neg heq] at hsum
      rw [if_neg (Ne.symm heq)]
      omega
  refine ⟨hinv.rep, fun v => ?_, hinv.unused, fun v hv hzero => ?_, fun v hv => ?_⟩
  · have hsum := hmoves.refs v
    have hsame : refsOf (s.setPc p .idle) p v = refsOf s p v := by
      rw [refsOf_setPc, refsOf, hpc]
      rfl
    change s.ref v = T.count v + ∑ q, refsOf (s.setPc p .idle) q v
    rw [hinv.count v]
    omega
  · exact (htotal v).trans (hinv.once v hv hzero)
  · exact (htotal v).trans (hinv.live v hv)

end

/-! ### Runs -/

/-- Every step keeps the invariant. -/
theorem RefInv.step {a : RefAction P} (hinv : RefInv s T) (h : s.step a = some s') :
    ∃ T', RefInv s' T' := by
  cases a with
  | add p =>
    rw [RefSys.step] at h
    split at h
    · exact ⟨_, hinv.add h⟩
    · cases h
  | get p k =>
    rw [RefSys.step] at h
    split at h
    · exact ⟨_, hinv.get h⟩
    · cases h
  | free p k put =>
    rw [RefSys.step] at h
    split at h
    · rename_i hidle
      exact ⟨_, hinv.free hidle h⟩
    · cases h
  | put p v =>
    rw [RefSys.step] at h
    obtain ⟨hput, ⟨⟩⟩ := Option.ite_none_right_eq_some.mp h
    exact ⟨T, hinv.put hput.1 hput.2⟩
  | run p =>
    rw [RefSys.step] at h
    cases hpc : s.pc p with
    | idle =>
      rw [hpc] at h
      cases h
    | check v =>
      rw [hpc] at h
      cases h
      exact ⟨T, hinv.check hpc⟩
    | sub v =>
      rw [hpc] at h
      cases h
      exact ⟨T, hinv.sub hpc⟩
    | delete v =>
      rw [hpc] at h
      cases h
      exact ⟨T, hinv.delete hpc⟩

end Threads

/-- A thread has the value: it obtained it and has not put it, or its put has not decremented
the count yet. -/
def Has (s : RefSys P) (p : P) (v : Nat) : Prop :=
  v ∈ s.held p ∨ s.pc p = .check v ∨ s.pc p = .sub v

/-- The value has a handle in the tree. -/
def InTree (s : RefSys P) (v : Nat) : Prop :=
  ∃ h, btGetNodeValue s.tree h = some (some v)

/-- A put that is under way still has its reference. -/
theorem pending_pos_iff (v : Nat) (pc : PutPc) :
    0 < pending v pc ↔ pc = .check v ∨ pc = .sub v := by
  cases pc with
  | idle | delete w => simp [pending]
  | check w | sub w =>
    rw [pending]
    split <;> simp [*]

/-- A thread with a reference has the value. -/
theorem refsOf_pos_iff (s : RefSys P) (p : P) (v : Nat) : 0 < refsOf s p v ↔ Has s p v := by
  rw [Has, refsOf, Nat.add_pos_iff_pos_or_pos, List.count_pos_iff, pending_pos_iff]

/-- A value is in the tree when the table counts it. -/
theorem RefInv.inTree_iff [Fintype P] (hinv : RefInv s T) (v : Nat) :
    InTree s v ↔ 0 < T.count v := by
  rw [T.count_pos_iff, InTree]
  simp only [hinv.rep.btGetNodeValue_eq, Option.some.injEq]

/-- A call of `delete_func` is due for a value. -/
def DeleteDue (s : RefSys P) (v : Nat) : Prop :=
  ∃ p, s.pc p = .delete v

/-- What holds of a value `v` in every state of every run. -/
structure RefsSound (s : RefSys P) (v : Nat) : Prop where
  /-- `delete_func` is called at most once. -/
  atMostOnce : s.deleted v ≤ 1
  /-- When it is called, or was called, the node is freed and no thread has the value. -/
  afterLastUse : DeleteDue s v ∨ s.deleted v = 1 → ¬ InTree s v ∧ ∀ p, ¬ Has s p v
  /-- It is not called again. -/
  notAgain : DeleteDue s v → s.deleted v = 0
  /-- When the node is freed and no thread has the value any more, it is called or was called. -/
  atLeastOnce : v < s.nextValue → ¬ InTree s v → (∀ p, ¬ Has s p v) → ¬ DeleteDue s v →
    s.deleted v = 1
  /-- `bt_get_node_value` does not return a deleted value. -/
  getsLive : ∀ h, btGetNodeValue s.tree h = some (some v) → s.deleted v = 0

/-- Under the invariant the references are sound. -/
theorem RefInv.sound [Fintype P] (hinv : RefInv s T) (v : Nat) : RefsSound s v := by
  -- The count is zero exactly when nobody has a reference.
  have hzero : s.ref v = 0 ↔ ¬ InTree s v ∧ ∀ p, ¬ Has s p v := by
    rw [hinv.count v, Nat.add_eq_zero_iff, hinv.inTree_iff, pos_iff_ne_zero, not_not,
      Finset.sum_eq_zero_iff]
    simp only [Finset.mem_univ, forall_const, ← refsOf_pos_iff, pos_iff_ne_zero, not_not]
  have hdue : 0 < ∑ p, deleting v (s.pc p) ↔ DeleteDue s v := by
    rw [pos_iff_ne_zero, ne_eq, Finset.sum_eq_zero_iff]
    simp only [Finset.mem_univ, forall_const, not_forall, DeleteDue]
    refine exists_congr fun p => ?_
    cases s.pc p <;> simp [deleting]
  have honce := hinv.once v
  -- The calls that were made and those that are due add up to one, or to none while the value
  -- has references.
  have hcalls : s.deleted v + ∑ p, deleting v (s.pc p) = 0 ∨
      s.deleted v + ∑ p, deleting v (s.pc p) = 1 ∧ s.ref v = 0 := by
    by_cases hlive : s.nextValue ≤ v ∨ 0 < s.ref v
    · exact .inl (hinv.live v hlive)
    · have hz : s.ref v = 0 := by omega
      exact .inr ⟨honce (by omega) hz, hz⟩
  have hafter : DeleteDue s v ∨ s.deleted v = 1 → ¬ InTree s v ∧ ∀ p, ¬ Has s p v := by
    rw [← hzero, ← hdue]
    omega
  refine ⟨by omega, hafter, fun h => ?_, fun hlt htree hhas hnot => ?_, fun k hk => ?_⟩
  · rw [← hdue] at h
    omega
  · rw [← hdue] at hnot
    have hone := honce hlt (hzero.mpr ⟨htree, hhas⟩)
    omega
  · by_contra hne
    exact (hafter (.inr (by omega))).1 ⟨k, hk⟩

/-- Every thread can go on: an idle one can call each function of the tree, and another one
finishes its put. -/
def NeverStuck [DecidableEq P] (s : RefSys P) : Prop :=
  ∀ p, if s.pc p = .idle then
    (s.step (.add p)).isSome ∧ ∀ h put, (s.step (.get p h)).isSome ∧ (s.step (.free p h put)).isSome
  else (s.step (.run p)).isSome

/-- Under the invariant no call dereferences NULL. -/
theorem RefInv.neverStuck [Fintype P] [DecidableEq P] (hinv : RefInv s T) : NeverStuck s := by
  intro p
  split
  · rename_i hidle
    simp only [RefSys.step, if_pos hidle]
    obtain ⟨t, hadd, -⟩ := hinv.rep.btNodeAdd s.nextValue
    refine ⟨by rw [RefSys.add, hadd]; rfl, fun h put => ⟨?_, ?_⟩⟩
    · rw [RefSys.get, hinv.rep.btGetNodeValue_eq]
      rfl
    · obtain ⟨t', hfree, -⟩ := hinv.rep.btNodeFree h
      rw [RefSys.free, hfree]
      rfl
  · rename_i hbusy
    rw [RefSys.step]
    cases hpc : s.pc p with
    | idle => exact absurd hpc hbusy
    | check v | sub v | delete v => rfl

/-- In every run of any number of threads, every value is deleted once, after its node was freed
and its last holder has put it. No call of a thread gets stuck. -/
theorem value_deleted_once [Fintype P] [DecidableEq P] {s : RefSys P} {as : List (RefAction P)}
    (h : exec RefSys.step (RefSys.init P) as = some s) :
    NeverStuck s ∧ ∀ v, RefsSound s v := by
  obtain ⟨T, hinv⟩ := exec_invariant (I := fun s => ∃ T, RefInv s T)
    (fun _ _ _ ⟨_, hinv⟩ hstep => hinv.step hstep) ⟨_, RefInv.init⟩ h
  exact ⟨hinv.neverStuck, hinv.sound⟩

/-- Thread 0 adds a value and thread 1 gets it. Thread 0 frees the node, and then both put the
value. -/
def sharedValue : List (RefAction (Fin 2)) :=
  [.add 0, .get 1 1, .free 0 1 true, .run 0, .run 0, .put 1 0, .run 1, .run 1, .run 1]

/-- A value that two threads share is deleted once. -/
theorem sharedValue_deleted_once :
    ∃ s, exec RefSys.step (RefSys.init (Fin 2)) sharedValue = some s ∧ s.deleted 0 = 1 ∧
      RefsSound s 0 := by
  obtain ⟨s, hrun, hdeleted⟩ : ∃ s, exec RefSys.step (RefSys.init (Fin 2)) sharedValue = some s ∧
      s.deleted 0 = 1 := ⟨_, rfl, rfl⟩
  exact ⟨s, hrun, hdeleted, (value_deleted_once hrun).2 0⟩

end OpenCryptoki.Proofs.Common
