import OpenCryptoki.Common.Btree
import OpenCryptoki.Lib.BitPath
import OpenCryptoki.Lib.HandleTable

/-!
# `OpenCryptoki.Proofs.Common.Btree`: the tree of handles is a handle table

`Represents t T` relates a tree to a handle table. The node of handle `h` is at address `h`,
its children are the nodes of `descend h 2` and `descend h 3` as far as they exist, and its
parent pointer leads back. A node is flagged as free when its handle has no value, and the
free list of the table is the chain through the value fields of the free nodes.

Both walks of the source then follow from one equation of `descend`: the walk down from the
root by the bits of a handle (`btWalk_eq`), and the walk up to the root that rebuilds the
handle (`getNodeHandle_eq`). Each operation is proved to do what the table does, and
`btree_refines_handleTable` carries this to every sequence of operations.
-/

set_option autoImplicit false

namespace OpenCryptoki.Proofs.Common

open Lib OpenCryptoki.Common Function
open Option (bind_eq_bind bind_some map_some)

variable {V : Type}

/-! ### The representation -/

/-- The pointer to the node of handle `c`, in a tree of `size` nodes. -/
def slot (size c : Nat) : Option Addr :=
  if c ≤ size then some c else none

/-- The node of handle `h`. -/
structure NodeAt (T : HandleTable V) (h : Nat) (n : BtNode V) : Prop where
  child : ∀ i, n.child i = slot T.size (descend h (2 + i % 2))
  parent : h = 1 ∧ n.parent = none ∨
    ∃ p b, 0 < p ∧ b < 2 ∧ h = descend p (2 + b) ∧ n.parent = some p
  free : n.free = (T.get h).isNone
  value : ∀ v, T.get h = some v → n.value = .user v

def Nodes (heap : Addr → Option (BtNode V)) (T : HandleTable V) : Prop :=
  ∀ h, 0 < h → h ≤ T.size → ∃ n, heap h = some n ∧ NodeAt T h n

/-- The chain of free nodes from a pointer on. -/
def FreeChain (heap : Addr → Option (BtNode V)) : Option Addr → List Nat → Prop
  | a, [] => a = none
  | a, f :: fs =>
      a = some f ∧ ∃ n next, heap f = some n ∧ n.value = .link next ∧ FreeChain heap next fs

structure Represents (t : Btree V) (T : HandleTable V) : Prop where
  size : t.size = T.size
  brk : t.brk = T.size + 1
  top : t.top = slot T.size 1
  nodes : Nodes t.heap T
  chain : FreeChain t.heap t.freeList T.free
  freeNodes : t.freeNodes = T.free.length

variable {heap : Addr → Option (BtNode V)} {t : Btree V} {T : HandleTable V} {h : Nat} {v : V}

variable {heap' : Addr → Option (BtNode V)}

/-- The chain depends on its own nodes only. -/
theorem FreeChain.congr {fs : List Nat} (hsame : ∀ f ∈ fs, heap' f = heap f) :
    ∀ {a : Option Addr}, FreeChain heap a fs → FreeChain heap' a fs := by
  induction fs with
  | nil => exact id
  | cons f fs ih =>
    rintro a ⟨ha, n, next, hn, hvalue, hrest⟩
    refine ⟨ha, n, next, ?_, hvalue, ih (fun k hk => hsame k (List.mem_cons_of_mem _ hk)) hrest⟩
    rw [hsame f List.mem_cons_self, hn]

/-- A new tree is the empty table. -/
theorem represents_init : Represents (btInit V) HandleTable.empty where
  size := rfl
  brk := rfl
  top := rfl
  nodes _ hpos hle := absurd (hpos.trans_le hle) (lt_irrefl 0)
  chain := rfl
  freeNodes := rfl

/-- The node that is changed. -/
theorem heap_modify_self {a : Addr} {n : BtNode V} (h : t.heap a = some n)
    (f : BtNode V → BtNode V) : (t.modify a f).heap a = some (f n) := by
  simp [Btree.modify, h]

/-- The other nodes are kept. -/
theorem heap_modify_of_ne {a b : Addr} (h : b ≠ a) (t : Btree V) (f : BtNode V → BtNode V) :
    (t.modify a f).heap b = t.heap b :=
  update_of_ne h _ _

/-! ### The two walks -/

/-- The walk by the bits of `i` ends at the number that they spell. -/
theorem btWalk_eq (hnodes : Nodes heap T) {p i : Nat} (hp : 0 < p) (hi : 0 < i)
    (hle : descend p i ≤ T.size) :
    btWalk heap p i = some (descend p i) := by
  induction i using Nat.strong_induction_on generalizing p with
  | h i ih =>
    rw [btWalk]
    by_cases hone : i = 1
    · rw [if_pos hone, hone, descend_one_right]
    · have hi2 : 2 ≤ i := by omega
      obtain ⟨n, hn, hat⟩ := hnodes p hp (le_of_lt (lt_of_lt_of_le (lt_descend hi2) hle))
      have hend := descend_halve hp hi2
      have hchild : descend p (2 + i % 2) ≤ T.size := by
        refine le_trans ?_ hle
        rw [← hend]
        exact le_self_add
      rw [if_neg hone, if_neg (by omega), hn]
      simp only [bind_eq_bind, bind_some, hat.child i, slot, if_pos hchild]
      rw [ih (i / 2) (by omega) (hp.trans (lt_descend (by omega))) (by omega)
        (by rw [hend]; exact hle), hend]

/-- The walk up to the root puts the path in front of what it has so far. -/
theorem getNodeHandle_eq (hnodes : Nodes heap T) (fuel : Nat) {handle : Nat} (hfuel : h ≤ fuel)
    (hpos : 0 < h) (hle : h ≤ T.size) (hhandle : 0 < handle) :
    getNodeHandle heap fuel h handle = some (descend h handle) := by
  induction fuel generalizing h handle with
  | zero => omega
  | succ fuel ih =>
    obtain ⟨n, hn, hat⟩ := hnodes h hpos hle
    rw [getNodeHandle, hn]
    simp only [bind_eq_bind, bind_some]
    rcases hat.parent with ⟨hroot, hparent⟩ | ⟨p, b, hp, hb, hchild, hparent⟩
    · rw [hparent, hroot, descend_one_left hhandle]
    · have hlt : p < h := by
        rw [hchild]
        exact lt_descend (by omega)
      obtain ⟨m, hm, hatp⟩ := hnodes p hp (by omega)
      have hleft : m.left = slot T.size (descend p 2) := hatp.child 0
      simp only [hparent, hm, bind_some, hleft]
      -- The node is the left child of its parent exactly when the bit is 0.
      obtain rfl | rfl : b = 0 ∨ b = 1 := by omega
      · rw [slot, ← hchild, if_pos hle, if_pos rfl, ih (by omega) hp (by omega) (by omega), hchild,
          descend_child hp hb hhandle, mul_comm]
        rfl
      · have hne : slot T.size (descend p 2) ≠ some h := by
          rw [slot]
          split
          · intro heq
            have hsame := Option.some.inj heq
            rw [hchild] at hsame
            exact absurd (descend_child_inj (b := 0) hp hp (by decide) hb hsame).2 (by decide)
          · exact nofun
        rw [if_neg hne, ih (by omega) hp (by omega) (by omega), hchild,
          descend_child hp hb hhandle, mul_comm]

/-! ### The operations -/

section
variable (hrep : Represents t T)
include hrep

/-- `bt_get_node` finds the node of a handle in use. -/
theorem Represents.btGetNode_eq (h : Nat) : btGetNode t h = some ((T.get h).map fun _ => h) := by
  rw [btGetNode, hrep.size]
  split
  · rw [T.get_eq_none h (by omega)]
    rfl
  · have hpos : 0 < h := by omega
    have hle : h ≤ T.size := by omega
    obtain ⟨n, hn, hat⟩ := hrep.nodes h hpos hle
    have htop : t.top = some 1 := by rw [hrep.top, slot, if_pos (by omega)]
    have hwalk : (if h = 1 then some 1 else btWalk t.heap 1 h) = some h := by
      split
      · rename_i hone
        rw [hone]
      · have heq := btWalk_eq hrep.nodes one_pos hpos
          (by rw [descend_one_left hpos]; exact hle)
        rw [heq, descend_one_left hpos]
    simp only [bind_eq_bind, bind_some, htop, hwalk, hn, hat.free]
    cases T.get h <;> rfl

/-- The node of a handle that is in use. -/
theorem Represents.node_of_get (hget : T.get h = some v) :
    0 < h ∧ h ≤ T.size ∧ ∃ n, t.heap h = some n ∧ NodeAt T h n ∧ n.user = some v := by
  have hin : 0 < h ∧ h ≤ T.size := by
    by_contra hout
    rw [T.get_eq_none h hout] at hget
    cases hget
  obtain ⟨n, hn, hat⟩ := hrep.nodes h hin.1 hin.2
  exact ⟨hin.1, hin.2, n, hn, hat, by rw [BtNode.user, hat.value v hget]⟩

/-- `bt_get_node_value` returns what the table has. -/
theorem Represents.btGetNodeValue_eq (h : Nat) : btGetNodeValue t h = some (T.get h) := by
  rw [btGetNodeValue, hrep.btGetNode_eq]
  cases hget : T.get h with
  | none => rfl
  | some v =>
    obtain ⟨-, -, n, hn, -, huser⟩ := hrep.node_of_get hget
    simp only [bind_eq_bind, bind_some, map_some, hn, huser]

omit hrep in
/-- Changing the flag and the value of one node, along with the entry of its handle. -/
theorem Nodes.modify {T' : HandleTable V} {f : BtNode V → BtNode V} (hnodes : Nodes heap T)
    (hsize : T'.size = T.size) (hsame : ∀ k, k ≠ h → T'.get k = T.get k)
    (hf : ∀ n, NodeAt T h n → NodeAt T' h (f n)) :
    Nodes (Function.update heap h ((heap h).map f)) T' := by
  intro k hpos hle
  rw [hsize] at hle
  obtain ⟨n, hn, hat⟩ := hnodes k hpos hle
  by_cases hk : k = h
  · subst hk
    exact ⟨f n, by rw [update_self, hn, map_some], hf n hat⟩
  · refine ⟨n, by rw [update_of_ne hk, hn], ?_, hat.parent, ?_, ?_⟩
    · rw [hsize]
      exact hat.child
    · rw [hsame k hk]
      exact hat.free
    · rw [hsame k hk]
      exact hat.value

/-- `bt_node_free` removes the handle from the table. -/
theorem Represents.btNodeFree (h : Nat) :
    ∃ t', btNodeFree t h = some (t', T.get h) ∧ Represents t' (T.remove h) := by
  rw [OpenCryptoki.Common.btNodeFree, hrep.btGetNode_eq]
  cases hget : T.get h with
  | none => exact ⟨t, rfl, by rw [HandleTable.remove, dif_neg (by simp [hget])]; exact hrep⟩
  | some v =>
    obtain ⟨hpos, hle, n, hn, hat, huser⟩ := hrep.node_of_get hget
    have hlive : (T.get h).isSome := by rw [hget]; rfl
    refine ⟨_, by simp only [bind_eq_bind, bind_some, map_some, hn, huser]; rfl, ?_⟩
    rw [HandleTable.remove, dif_pos hlive]
    have hnone : (T.erase h hlive).get h = none := update_self _ _ _
    refine ⟨hrep.size, hrep.brk, hrep.top, ?_, ?_, ?_⟩
    · refine hrep.nodes.modify rfl (fun k hk => update_of_ne hk _ _) fun m hm => ?_
      refine ⟨hm.child, hm.parent, by rw [hnone]; rfl, fun w hw => ?_⟩
      rw [hnone] at hw
      cases hw
    · -- The node is pushed on the chain, which does not pass through it.
      refine ⟨rfl, { n with free := true, value := .link t.freeList }, t.freeList,
        heap_modify_self hn _, rfl, hrep.chain.congr fun f hf => heap_modify_of_ne ?_ _ _⟩
      rintro rfl
      rw [((T.mem_free_iff f).mp hf).2] at hlive
      cases hlive
    · rw [Btree.modify, hrep.freeNodes]
      rfl

/-! ### A new handle -/

/-- `bt_node_add` on a tree with a free list recycles its first node. -/
theorem Represents.btNodeAdd_recycle {f : Nat} {fs : List Nat} (hfree : T.free = f :: fs)
    (mallocOk : Bool) (v : V) :
    ∃ t', btNodeAdd t mallocOk v = some (t', f) ∧ Represents t' (T.add v) := by
  obtain ⟨⟨hpos, hle⟩, -⟩ := T.of_free_eq_cons hfree
  have hnext : T.nextHandle = f := by rw [HandleTable.nextHandle, hfree]; rfl
  have hsize : (T.add v).size = T.size := by
    change max T.size T.nextHandle = T.size
    rw [hnext, max_eq_left hle]
  have htop : t.top = some 1 := by rw [hrep.top, slot, if_pos (by omega)]
  have hchain := hrep.chain
  rw [hfree] at hchain
  obtain ⟨hhead, n, next, hn, hlink, hrest⟩ := hchain
  have hget : (T.add v).get f = some v := by rw [T.get_add, if_pos hnext.symm]
  have hnodes : Nodes (t.modify f fun n => { n with value := .user v, free := false }).heap
      (T.add v) := by
    refine hrep.nodes.modify hsize (fun k hk => ?_) fun m hm => ?_
    · rw [T.get_add, hnext, if_neg hk]
    · refine ⟨?_, hm.parent, by rw [hget]; rfl, fun w hw => ?_⟩
      · rw [hsize]
        exact hm.child
      · rw [hget] at hw
        cases hw
        rfl
  have hhandle := getNodeHandle_eq hnodes t.brk (by rw [hrep.brk]; omega) hpos
    (by rw [hsize]; exact hle) one_pos
  rw [descend_one_right] at hhandle
  refine ⟨_, by simp only [btNodeAdd, htop, hhead, bind_eq_bind, bind_some, hn,
    hlink, hhandle]; rfl, ?_⟩
  refine ⟨?_, ?_, ?_, hnodes, ?_, ?_⟩
  · rw [hsize]
    exact hrep.size
  · rw [hsize]
    exact hrep.brk
  · rw [hsize]
    exact hrep.top
  · -- The rest of the chain does not pass through the recycled node.
    have htail : (T.add v).free = fs := congrArg List.tail hfree
    rw [htail]
    refine hrest.congr fun k hk => heap_modify_of_ne ?_ _ _
    rintro rfl
    have hnodup := T.free_nodup
    rw [hfree, List.nodup_cons] at hnodup
    exact hnodup.1 hk
  · change t.freeNodes - 1 = T.free.tail.length
    rw [hrep.freeNodes, List.length_tail]

end

/-- Where the loop of `bt_node_add` creates the node of the next handle: at the one place where
a parent lacks it. -/
theorem btAddLoop_eq (hnodes : Nodes t.heap T) (mallocOk : Bool) (v : V) {p i : Nat} (hp : 0 < p)
    (hi : 2 ≤ i) (hend : descend p i = T.size + 1) :
    ∃ q c, 0 < q ∧ q ≤ T.size ∧ c < 2 ∧ descend q (2 + c) = T.size + 1 ∧
      btAddLoop t mallocOk v p i = some (nodeCreate t mallocOk
        (if c = 1 then .right q else .left q) (some q) v) := by
  induction i using Nat.strong_induction_on generalizing p with
  | h i ih =>
    have hple : p ≤ T.size := by
      have := lt_descend (p := p) hi
      omega
    obtain ⟨n, hn, hat⟩ := hnodes p hp hple
    have hhalve := descend_halve hp hi
    rw [btAddLoop, if_neg (by omega), if_neg (by omega), hn]
    simp only [bind_eq_bind, bind_some, hat.child i]
    by_cases hlast : i / 2 = 1
    · -- The last bit: the child is the missing node.
      rw [hlast, descend_one_right, hend] at hhalve
      refine ⟨p, i % 2, hp, hple, Nat.mod_lt _ (by decide), hhalve, ?_⟩
      rw [slot, hhalve, if_neg (by omega)]
    · have hchild : descend p (2 + i % 2) ≤ T.size := by
        have := lt_descend (p := descend p (2 + i % 2)) (show 2 ≤ i / 2 by omega)
        omega
      rw [slot, if_pos hchild]
      exact ih (i / 2) (by omega) (hp.trans (lt_descend (by omega))) (by omega)
        (hhalve.trans hend)

/-- What `node_create` does to a tree when it puts a node below node `q`, on side `c`. -/
structure Created (t t' : Btree V) (q c : Nat) (v : V) : Prop where
  new : t'.heap t.brk = some ⟨none, none, some q, false, .user v⟩
  others : ∀ k, k ≠ q → k ≠ t.brk → t'.heap k = t.heap k
  parent : ∀ n, t.heap q = some n → ∃ n', t'.heap q = some n' ∧ n'.parent = n.parent ∧
    n'.free = n.free ∧ n'.value = n.value ∧
      ∀ i, n'.child i = if i % 2 = c then some t.brk else n.child i
  rest : t'.brk = t.brk + 1 ∧ t'.freeList = t.freeList ∧ t'.top = t.top ∧ t'.freeNodes = t.freeNodes

/-- A new node is linked below its parent. -/
theorem nodeCreate_created {q c : Nat} (hq : q < t.brk) (hc : c < 2) :
    ∃ t', nodeCreate t true (if c = 1 then .right q else .left q) (some q) v = some t' ∧
      Created t t' q c v := by
  have hne : q ≠ t.brk := hq.ne
  obtain rfl | rfl : c = 0 ∨ c = 1 := by omega
  all_goals
    refine ⟨_, rfl, ?_, fun k hkq hkb => ?_, fun n hn => ?_, ⟨rfl, rfl, rfl, rfl⟩⟩
    · simp [Btree.store, Btree.modify, update_of_ne hne.symm]
    · simp [Btree.store, Btree.modify, update_of_ne hkq, update_of_ne hkb]
    · refine ⟨_, heap_modify_self (by simpa [update_of_ne hne] using hn) _, rfl, rfl, rfl,
        fun i => ?_⟩
      rcases Nat.mod_two_eq_zero_or_one i with hi | hi <;> simp [BtNode.child, hi]

/-- The heap with a node for the next handle, to which its parent points. -/
theorem Nodes.grow (hnodes : Nodes heap T) (parent : Option Addr) (hfree : T.free = [])
    (hnew : heap' (T.size + 1) = some ⟨none, none, parent, false, .user v⟩)
    (hparent : T.size + 1 = 1 ∧ parent = none ∨
      ∃ p b, 0 < p ∧ b < 2 ∧ T.size + 1 = descend p (2 + b) ∧ parent = some p)
    (hold : ∀ h n, 0 < h → h ≤ T.size → heap h = some n → ∃ n', heap' h = some n' ∧
      n'.parent = n.parent ∧ n'.free = n.free ∧ n'.value = n.value ∧
      ∀ i, n'.child i =
        if descend h (2 + i % 2) = T.size + 1 then some (T.size + 1) else n.child i) :
    Nodes heap' (T.add v) := by
  obtain ⟨hnext, hsize, -⟩ := T.add_of_free_eq_nil hfree v
  intro h hpos hle
  rw [hsize] at hle
  by_cases hh : h = T.size + 1
  · subst hh
    have hget : (T.add v).get (T.size + 1) = some v := by rw [T.get_add, if_pos hnext.symm]
    refine ⟨_, hnew, fun i => ?_, hparent, by rw [hget]; rfl, fun w hw => ?_⟩
    · -- The new node has no children: their numbers are greater than its own.
      have hlt := lt_descend (p := T.size + 1) (show 2 ≤ 2 + i % 2 by omega)
      rw [hsize, slot, if_neg (by omega), BtNode.child, ite_self]
    · rw [hget] at hw
      cases hw
      rfl
  · obtain ⟨n, hn, hat⟩ := hnodes h hpos (by omega)
    obtain ⟨n', hn', hpar, hflag, hval, hchild⟩ := hold h n hpos (by omega) hn
    have hget : (T.add v).get h = T.get h := by rw [T.get_add, hnext, if_neg hh]
    refine ⟨n', hn', fun i => ?_, ?_, ?_, ?_⟩
    · rw [hchild, hsize, hat.child, slot, slot]
      split
      · rename_i heq
        rw [heq, if_pos le_rfl]
      · have hiff : descend h (2 + i % 2) ≤ T.size + 1 ↔ descend h (2 + i % 2) ≤ T.size := by omega
        simp only [hiff]
    · rw [hpar]
      exact hat.parent
    · rw [hflag, hget]
      exact hat.free
    · rw [hval, hget]
      exact hat.value

section
variable (hrep : Represents t T)
include hrep

/-- `bt_node_add` on an empty tree creates the root. -/
theorem Represents.btNodeAdd_root (hfree : T.free = []) (hzero : T.size = 0) (v : V) :
    ∃ t', btNodeAdd t true v = some (t', 1) ∧ Represents t' (T.add v) := by
  obtain ⟨-, hsize, htail⟩ := T.add_of_free_eq_nil hfree v
  have htop : t.top = none := by rw [hrep.top, hzero]; rfl
  have hbrk : t.brk = 1 := by rw [hrep.brk, hzero]
  refine ⟨_, by simp only [btNodeAdd, htop, nodeCreate, if_true]; rfl, ?_⟩
  refine ⟨?_, ?_, ?_, ?_, ?_, ?_⟩
  · rw [hsize, hzero]
    rfl
  · rw [hsize, hzero]
    exact congrArg (· + 1) hbrk
  · rw [hsize, hzero]
    exact congrArg some hbrk
  · refine hrep.nodes.grow none hfree ?_ (.inl ⟨by omega, rfl⟩)
      fun h n hpos hle => by omega
    rw [← hrep.brk]
    exact update_self _ _ _
  · have hchain := hrep.chain
    rw [hfree] at hchain
    rw [htail]
    exact hchain
  · rw [htail]
    exact hrep.freeNodes.trans (congrArg List.length hfree)

/-- `bt_node_add` on a tree without free nodes adds the node of the next handle. -/
theorem Represents.btNodeAdd_below (hfree : T.free = []) (hpos : 0 < T.size) (v : V) :
    ∃ t', btNodeAdd t true v = some (t', T.size + 1) ∧ Represents t' (T.add v) := by
  obtain ⟨-, hsize, htail⟩ := T.add_of_free_eq_nil hfree v
  have htop : t.top = some 1 := by rw [hrep.top, slot, if_pos (Nat.succ_le_of_lt hpos)]
  have hchain := hrep.chain
  rw [hfree] at hchain
  obtain ⟨q, c, hq, hqle, hc, hend, hloop⟩ := btAddLoop_eq hrep.nodes true v one_pos
    (show 2 ≤ T.size + 1 by omega) (descend_one_left (Nat.succ_pos _))
  obtain ⟨t', ht', hcreated⟩ := nodeCreate_created (v := v)
    (show q < t.brk by rw [hrep.brk]; omega) hc
  obtain ⟨hbrk, hlist, htop', hcount⟩ := hcreated.rest
  have hnone : t.freeList = none := hchain
  refine ⟨{ t' with size := T.size + 1 }, ?_, ?_, ?_, ?_, ?_, ?_, ?_⟩
  · simp only [btNodeAdd, htop, hnone, hrep.size, hloop, ht', bind_eq_bind, bind_some]
  · exact hsize.symm
  · rw [hsize, ← hrep.brk]
    exact hbrk
  · rw [hsize, slot, if_pos (le_add_self)]
    exact htop'.trans htop
  · refine hrep.nodes.grow _ hfree (hrep.brk ▸ hcreated.new)
      (.inr ⟨q, c, hq, hc, hend.symm, rfl⟩) fun h n hh hle hn => ?_
    by_cases hhq : h = q
    · -- The parent gets the new node on side `c`.
      subst hhq
      obtain ⟨n', hn', hpar, hflag, hval, hchild⟩ := hcreated.parent n hn
      refine ⟨n', hn', hpar, hflag, hval, fun i => ?_⟩
      have hiff : i % 2 = c ↔ descend h (2 + i % 2) = T.size + 1 := by
        constructor
        · intro hi
          rw [hi, hend]
        · intro hi
          exact (descend_child_inj hh hh (Nat.mod_lt _ (by decide)) hc (hi.trans hend.symm)).2
      rw [hchild, hrep.brk]
      simp only [hiff]
    · -- No other node has the new one as its child.
      refine ⟨n, ?_, rfl, rfl, rfl, fun i => ?_⟩
      · exact (hcreated.others h hhq (by rw [hrep.brk]; omega)).trans hn
      · refine (if_neg fun heq => hhq ?_).symm
        exact (descend_child_inj hh hq (Nat.mod_lt _ (by decide)) hc (heq.trans hend.symm)).1
  · rw [htail]
    exact hlist.trans hnone
  · rw [htail]
    exact hcount.trans (hrep.freeNodes.trans (congrArg List.length hfree))

/-- `bt_node_add` enters the value under the next handle of the table. -/
theorem Represents.btNodeAdd (v : V) :
    ∃ t', btNodeAdd t true v = some (t', T.nextHandle) ∧ Represents t' (T.add v) := by
  cases hfree : T.free with
  | cons f fs =>
    rw [HandleTable.nextHandle, hfree]
    exact hrep.btNodeAdd_recycle hfree true v
  | nil =>
    rw [(T.add_of_free_eq_nil hfree v).1]
    rcases Nat.eq_zero_or_pos T.size with hzero | hpos
    · rw [hzero]
      exact hrep.btNodeAdd_root hfree hzero v
    · exact hrep.btNodeAdd_below hfree hpos v

/-! ### Sequences of operations -/

/-- The operations on a handle table. -/
def tableOp (T : HandleTable V) : BtOp V → HandleTable V × BtOut V
  | .add v => (T.add v, .handle T.nextHandle)
  | .free h => (T.remove h, .value (T.get h))
  | .get h => (T, .value (T.get h))

def tableOps (T : HandleTable V) : List (BtOp V) → HandleTable V × List (BtOut V)
  | [] => (T, [])
  | o :: os =>
      let r := tableOp T o
      let rs := tableOps r.1 os
      (rs.1, r.2 :: rs.2)

/-- The tree behaves as the table: it has its values, it counts its handles, and it adds and
frees as the table does. The two ways from a handle to a node and back agree. -/
structure ActsAs (t : Btree V) (T : HandleTable V) : Prop where
  size : t.size = T.size
  get : ∀ h, btGetNodeValue t h = some (T.get h)
  get_unused : ∀ h, h = 0 ∨ t.size < h → T.get h = none
  inUse : btNodesInUse t = T.live.card
  isEmpty : btIsEmpty t ↔ T.live = ∅
  handle : ∀ h, 0 < h → h ≤ t.size → ∃ top a, t.top = some top ∧
    btWalk t.heap top h = some a ∧ getNodeHandle t.heap t.brk a 1 = some h
  add : ∀ v, ∃ t' h, btNodeAdd t true v = some (t', h) ∧ h ∉ T.live ∧
    h = T.free.headD (t.size + 1) ∧
      ∀ k, btGetNodeValue t' k = some (if k = h then some v else T.get k)
  free : ∀ h, ∃ t', btNodeFree t h = some (t', T.get h) ∧
    ∀ k, btGetNodeValue t' k = some (if k = h then none else T.get k)

/-- A tree answers as the table that it represents. -/
theorem Represents.actsAs :
    ActsAs t T where
  size := hrep.size
  get := hrep.btGetNodeValue_eq
  get_unused h hout := by
    rw [hrep.size] at hout
    exact T.get_eq_none h (by omega)
  inUse := by rw [btNodesInUse, hrep.size, hrep.freeNodes, T.card_live]
  isEmpty := by
    have hle := T.length_free_le
    rw [btIsEmpty, beq_iff_eq, hrep.size, hrep.freeNodes, ← Finset.card_eq_zero, T.card_live]
    omega
  handle h hpos hle := by
    rw [hrep.size] at hle
    have hwalk := btWalk_eq hrep.nodes one_pos hpos (by rw [descend_one_left hpos]; exact hle)
    have hup := getNodeHandle_eq hrep.nodes t.brk (by rw [hrep.brk]; omega) hpos hle
      one_pos
    rw [descend_one_left hpos] at hwalk
    rw [descend_one_right] at hup
    exact ⟨1, h, by rw [hrep.top, slot, if_pos (by omega)], hwalk, hup⟩
  add v := by
    obtain ⟨t', hadd, hrep'⟩ := hrep.btNodeAdd v
    refine ⟨t', T.nextHandle, hadd, T.nextHandle_notMem_live, by rw [hrep.size]; rfl, fun k => ?_⟩
    rw [hrep'.btGetNodeValue_eq, T.get_add]
  free h := by
    obtain ⟨t', hfree, hrep'⟩ := hrep.btNodeFree h
    refine ⟨t', hfree, fun k => ?_⟩
    rw [hrep'.btGetNodeValue_eq, T.get_remove]

/-- One operation of the tree is the operation of the table. -/
theorem Represents.op (o : BtOp V) :
    ∃ t', t.op o = some (t', (tableOp T o).2) ∧ Represents t' (tableOp T o).1 := by
  cases o with
  | add v =>
    obtain ⟨t', hadd, hrep'⟩ := hrep.btNodeAdd v
    exact ⟨t', by rw [Btree.op, hadd]; rfl, hrep'⟩
  | free h =>
    obtain ⟨t', hfree, hrep'⟩ := hrep.btNodeFree h
    exact ⟨t', by rw [Btree.op, hfree]; rfl, hrep'⟩
  | get h => exact ⟨t, by rw [Btree.op, hrep.btGetNodeValue_eq]; rfl, hrep⟩

/-- Any operations on the tree give the answers of the table. -/
theorem Represents.ops (os : List (BtOp V)) :
    ∃ t', t.ops os = some (t', (tableOps T os).2) ∧ Represents t' (tableOps T os).1 := by
  induction os generalizing t T with
  | nil => exact ⟨t, rfl, hrep⟩
  | cons o os ih =>
    obtain ⟨t₁, hop, hrep₁⟩ := hrep.op o
    obtain ⟨t₂, hops, hrep₂⟩ := ih hrep₁
    refine ⟨t₂, ?_, hrep₂⟩
    simp only [Btree.ops, hop, bind_eq_bind, bind_some, hops, tableOps]

end

/-- Every sequence of operations on a new tree runs through, returns what the handle table
returns, and leaves a tree that behaves as the table. -/
theorem btree_refines_handleTable (os : List (BtOp V)) :
    ∃ t, (btInit V).ops os = some (t, (tableOps HandleTable.empty os).2) ∧
      ActsAs t (tableOps HandleTable.empty os).1 := by
  obtain ⟨t, hops, hrep⟩ := represents_init.ops os
  exact ⟨t, hops, hrep.actsAs⟩

end OpenCryptoki.Proofs.Common
