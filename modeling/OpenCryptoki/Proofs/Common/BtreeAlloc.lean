import OpenCryptoki.Lib.Run
import OpenCryptoki.Proofs.Common.Btree

/-!
# `OpenCryptoki.Proofs.Common.BtreeAlloc`: the tree when memory runs out

`bt_node_add` allocates a node when the free list is empty. `add_unchanged_iff` says for every
tree that any sequence of calls leaves, failed allocations included, when a failed allocation
goes unnoticed: exactly when the tree has a root or its size is not 0. The root of an empty
tree is allocated after `size` is set to 1, so a failure there leaves a tree of size 1 without
a root, in which the lookup of handle 1 dereferences NULL.

The trees that can occur are those of `Represents` and that one broken tree, which the next
successful `bt_node_add` repairs (`Occurs`). `Occurs.call` says that no call leaves these trees.
-/

set_option autoImplicit false

namespace OpenCryptoki.Proofs.Common

open Lib OpenCryptoki.Common

variable {V : Type}

/-- The second tree looks to every caller as the first one does: the map from handles to
values, the counters and the free list, and what `bt_destroy` does. -/
structure Unchanged (t t' : Btree V) : Prop where
  get : ∀ h, btGetNodeValue t' h = btGetNodeValue t h
  size : t'.size = t.size
  freeNodes : t'.freeNodes = t.freeNodes
  freeList : t'.freeList = t.freeList
  inUse : btNodesInUse t' = btNodesInUse t
  isEmpty : btIsEmpty t' = btIsEmpty t
  destroy : btDestroy t' = btDestroy t

/-- If the allocation in `bt_node_add` fails, the call returns 0 and goes unnoticed. There is
an allocation when no node is on the free list. -/
def AddAtomic (t : Btree V) (v : V) : Prop :=
  t.freeList = none → ∃ t', btNodeAdd t false v = some (t', 0) ∧ Unchanged t t'

/-! ### Trees that occur -/

variable {t : Btree V} {T : HandleTable V}

/-- A failed allocation below the root leaves the tree alone. -/
theorem btNodeAdd_false_below (hrep : Represents t T) (hfree : T.free = []) (hpos : 0 < T.size)
    (v : V) : btNodeAdd t false v = some (t, 0) := by
  have htop : t.top = some 1 := by rw [hrep.top, slot, if_pos (Nat.succ_le_of_lt hpos)]
  have hchain := hrep.chain
  rw [hfree] at hchain
  have hlist : t.freeList = none := hchain
  obtain ⟨q, c, -, -, -, -, hloop⟩ := btAddLoop_eq hrep.nodes false v Nat.one_pos
    (show 2 ≤ T.size + 1 by omega) (descend_one_left (Nat.succ_pos _))
  simp only [btNodeAdd, htop, hlist, hrep.size, hloop, Option.bind_eq_bind, Option.bind_some]
  rfl

/-- A failed allocation of the root sets the size to 1. -/
theorem btNodeAdd_false_root (htop : t.top = none) (v : V) :
    btNodeAdd t false v = some ({ t with size := 1 }, 0) := by
  rw [btNodeAdd, htop]
  rfl

/-- Without a free list no handle is free. -/
theorem Represents.free_eq_nil (hrep : Represents t T) (h : t.freeList = none) : T.free = [] := by
  have hchain := hrep.chain
  cases hfree : T.free with
  | nil => rfl
  | cons f fs =>
    rw [hfree] at hchain
    rw [h] at hchain
    exact absurd hchain.1 (by simp)

/-- Without a root the size says nothing to `bt_node_add`. -/
theorem btNodeAdd_of_top_eq_none (htop : t.top = none) (size : Nat) (mallocOk : Bool) (v : V) :
    btNodeAdd { t with size } mallocOk v = btNodeAdd t mallocOk v := by
  simp only [btNodeAdd, htop]

/-- The trees that occur: those that represent a table, and the empty tree after a failed
allocation of its root. -/
inductive Occurs : Btree V → Prop
  | represents {t : Btree V} (T : HandleTable V) (hrep : Represents t T) : Occurs t
  | broken {t : Btree V} (T : HandleTable V) (hrep : Represents t T) (hzero : T.size = 0) :
      Occurs { t with size := 1 }

/-- An empty table has no root. -/
theorem Represents.top_eq_none (hrep : Represents t T) (hzero : T.size = 0) : t.top = none := by
  rw [hrep.top, hzero]
  rfl

/-- `bt_node_add` keeps the tree among those that occur, whether or not there is memory. -/
theorem Represents.occurs_btNodeAdd (hrep : Represents t T) (mallocOk : Bool) (v : V) :
    ∃ r, Common.btNodeAdd t mallocOk v = some r ∧ Occurs r.1 := by
  cases hfree : T.free with
  | cons f fs =>
    obtain ⟨t', hadd, hrep'⟩ := hrep.btNodeAdd_recycle hfree mallocOk v
    exact ⟨_, hadd, .represents _ hrep'⟩
  | nil =>
    cases mallocOk with
    | true =>
      obtain ⟨t', hadd, hrep'⟩ := hrep.btNodeAdd v
      exact ⟨_, hadd, .represents _ hrep'⟩
    | false =>
      rcases Nat.eq_zero_or_pos T.size with hzero | hpos
      · exact ⟨_, btNodeAdd_false_root (hrep.top_eq_none hzero) v, .broken T hrep hzero⟩
      · exact ⟨_, btNodeAdd_false_below hrep hfree hpos v, .represents T hrep⟩

/-- Every call keeps the tree among those that occur. -/
theorem Occurs.call {t' : Btree V} {c : BtCall V} (h : Occurs t) (hcall : t.call c = some t') :
    Occurs t' := by
  cases h with
  | represents T hrep =>
    cases c with
    | add v mallocOk =>
      obtain ⟨r, hadd, hr⟩ := hrep.occurs_btNodeAdd mallocOk v
      rw [Btree.call, hadd] at hcall
      cases hcall
      exact hr
    | free k =>
      obtain ⟨t₁, hfree, hrep₁⟩ := hrep.btNodeFree k
      rw [Btree.call, hfree] at hcall
      cases hcall
      exact .represents _ hrep₁
    | get k =>
      rw [Btree.call, hrep.btGetNodeValue_eq] at hcall
      cases hcall
      exact .represents T hrep
  | @broken t₀ T hrep hzero =>
    have htop := hrep.top_eq_none hzero
    cases c with
    | add v mallocOk =>
      -- The call sets the size to 1 again, so it acts as on the empty tree.
      obtain ⟨r, hadd, hr⟩ := hrep.occurs_btNodeAdd mallocOk v
      rw [Btree.call, btNodeAdd_of_top_eq_none htop, hadd] at hcall
      cases hcall
      exact hr
    | free k =>
      obtain ⟨⟨t₁, v⟩, hfree, rfl⟩ := Option.map_eq_some_iff.mp hcall
      obtain ⟨node, hnode, hfree⟩ := Option.bind_eq_some_iff.mp hfree
      -- Without a root only the handles above the size can be looked up.
      obtain rfl : node = none := by
        rw [btGetNode] at hnode
        split at hnode
        · exact (Option.some.inj hnode).symm
        · rw [htop] at hnode
          cases hnode
      obtain ⟨rfl, -⟩ := Prod.mk.inj (Option.some.inj hfree)
      exact .broken T hrep hzero
    | get k =>
      obtain ⟨_, -, rfl⟩ := Option.map_eq_some_iff.mp hcall
      exact .broken T hrep hzero

/-! ### Failed allocations -/

/-- Doing nothing goes unnoticed. -/
theorem Unchanged.refl (t : Btree V) : Unchanged t t :=
  ⟨fun _ => rfl, rfl, rfl, rfl, rfl, rfl, rfl⟩

/-- After any sequence of calls, failed allocations included, a failed allocation in
`bt_node_add` goes unnoticed exactly when the tree has a root or its size is not 0. -/
theorem add_unchanged_iff {cs : List (BtCall V)} {t : Btree V}
    (h : exec Btree.call (btInit V) cs = some t) (v : V) :
    AddAtomic t v ↔ t.top.isSome ∨ t.size ≠ 0 := by
  have hoccurs : Occurs t :=
    exec_invariant (fun _ _ _ => Occurs.call) (.represents _ represents_init) h
  cases hoccurs with
  | represents T hrep =>
    rcases Nat.eq_zero_or_pos T.size with hzero | hpos
    · -- The new tree, and every other tree without a node.
      have htop := hrep.top_eq_none hzero
      have hsize : t.size = 0 := hrep.size.trans hzero
      have hlist : t.freeList = none := by
        have hchain := hrep.chain
        rw [show T.free = [] from List.eq_nil_iff_forall_not_mem.mpr fun k hk => by
          have := (T.mem_free_iff k).mp hk
          omega] at hchain
        exact hchain
      refine iff_of_false ?_ (by simp [htop, hsize])
      intro hatomic
      obtain ⟨t', hadd, hsame⟩ := hatomic hlist
      rw [btNodeAdd_false_root htop] at hadd
      obtain ⟨rfl, -⟩ := Prod.mk.inj (Option.some.inj hadd)
      exact absurd (hsize.symm.trans hsame.size.symm) Nat.zero_ne_one
    · refine iff_of_true ?_ (.inr (by rw [hrep.size]; omega))
      intro hlist
      exact ⟨t, btNodeAdd_false_below hrep (hrep.free_eq_nil hlist) hpos v, .refl t⟩
  | @broken t₀ T hrep hzero =>
    refine iff_of_true ?_ (.inr Nat.one_ne_zero)
    intro hlist
    have htop := hrep.top_eq_none hzero
    exact ⟨_, btNodeAdd_false_root (t := { t₀ with size := 1 }) htop v, .refl _⟩

/-- A tree with one value keeps it when there is no memory for a second one. -/
theorem add_unchanged_one :
    ∃ t, exec Btree.call (btInit Nat) [.add 5 true] = some t ∧ AddAtomic t 6 := by
  have hexec : exec Btree.call (btInit Nat) [.add 5 true] = some _ := rfl
  exact ⟨_, hexec, (add_unchanged_iff hexec 6).mpr (.inl rfl)⟩

/-- The first `bt_node_add` finds no memory and returns 0. The tree then counts a node in use,
and the lookup of handle 1 and `bt_destroy` dereference NULL. On the new tree nothing is in
use, handle 1 has no value and `bt_destroy` has nothing to do. -/
theorem add_root_noticed :
    ∃ t, btNodeAdd (btInit Nat) false 7 = some (t, 0) ∧
      btNodesInUse t = 1 ∧ btGetNodeValue t 1 = none ∧ btDestroy t = none ∧
      btNodesInUse (btInit Nat) = 0 ∧ btGetNodeValue (btInit Nat) 1 = some none ∧
      (btDestroy (btInit Nat)).isSome ∧ ¬ AddAtomic (btInit Nat) 7 := by
  refine ⟨{ btInit Nat with size := 1 }, rfl, rfl, rfl, rfl, rfl, rfl, rfl, ?_⟩
  intro hatomic
  obtain ⟨t', hadd, hsame⟩ := hatomic rfl
  obtain ⟨rfl, -⟩ := Prod.mk.inj (Option.some.inj hadd)
  exact absurd hsame.size (by decide)

end OpenCryptoki.Proofs.Common
