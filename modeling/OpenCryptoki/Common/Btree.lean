import Mathlib.Algebra.Order.Ring.Nat

/-!
# `OpenCryptoki.Common.Btree`: the tree of handles

The model of `usr/lib/common/btree.c`. A node lives at an address of the heap, and a pointer
is `none` when it is NULL. `malloc` hands out the addresses in order and it may fail. A freed
node stays in the tree, with `BT_FLAG_FREE` set, and its value field is used to chain the
free list.

A function returns `none` when the source would dereference NULL or a pointer to no node, or
would take a link of the free list for a value or the reverse. The functions that lock the
mutex of the tree are modelled without the lock: each of them is one mutex-protected section.
The counters are natural numbers, since the tree cannot have `2^64` nodes.
-/

set_option autoImplicit false

namespace OpenCryptoki.Common

/-- The address of a node. -/
abbrev Addr := Nat

/-- What the value field of a node points to: a value, or the next node of the free list. -/
inductive BtValue (V : Type)
  | user (v : V)
  | link (next : Option Addr)

structure BtNode (V : Type) where
  left : Option Addr
  right : Option Addr
  parent : Option Addr
  /-- `BT_FLAG_FREE`. -/
  free : Bool
  value : BtValue V

/-- A tree with the heap of its nodes. `brk` is the address that `malloc` returns next. -/
structure Btree (V : Type) where
  heap : Addr → Option (BtNode V)
  brk : Addr
  freeList : Option Addr
  top : Option Addr
  size : Nat
  freeNodes : Nat

/-- `bt_init`. -/
def btInit (V : Type) : Btree V where
  heap _ := none
  brk := 1
  freeList := none
  top := none
  size := 0
  freeNodes := 0

section

variable {V : Type}

/-- The child that the low bit of `i` selects. -/
def BtNode.child (n : BtNode V) (i : Nat) : Option Addr :=
  if i % 2 = 1 then n.right else n.left

/-- The loop of `__bt_get_node`, from node `temp` on. -/
def btWalk (heap : Addr → Option (BtNode V)) (temp : Addr) (i : Nat) : Option Addr :=
  if i = 1 then some temp
  else if i = 0 then none
  else do
    let n ← heap temp
    let child ← n.child i
    btWalk heap child (i / 2)
termination_by i

/-- `__bt_get_node`, which `bt_get_node` calls in its locked section. -/
def btGetNode (t : Btree V) (nodeNum : Nat) : Option (Option Addr) :=
  if nodeNum = 0 ∨ nodeNum > t.size then some none
  else do
    let top ← t.top
    let a ← (if nodeNum = 1 then some top else btWalk t.heap top nodeNum)
    let n ← t.heap a
    some (if n.free then none else some a)

/-- The value of a node as the source reads it outside the free list. -/
def BtNode.user (n : BtNode V) : Option V :=
  match n.value with
  | .user v => some v
  | .link _ => none

/-- The locked section of `bt_get_node_value`, without the reference count. -/
def btGetNodeValue (t : Btree V) (nodeNum : Nat) : Option (Option V) := do
  match ← btGetNode t nodeNum with
  | none => some none
  | some a =>
      let n ← t.heap a
      let v ← n.user
      some (some v)

/-- Where `node_create` stores the address of the new node. -/
inductive ChildPtr
  | top
  | left (a : Addr)
  | right (a : Addr)

/-- Change the node at an address. -/
def Btree.modify (t : Btree V) (a : Addr) (f : BtNode V → BtNode V) : Btree V :=
  { t with heap := Function.update t.heap a ((t.heap a).map f) }

def Btree.store (t : Btree V) (childPtr : ChildPtr) (node : Addr) : Btree V :=
  match childPtr with
  | .top => { t with top := some node }
  | .left a => t.modify a fun n => { n with left := some node }
  | .right a => t.modify a fun n => { n with right := some node }

/-- `node_create`, where `mallocOk` says whether `malloc` succeeds. The result is `none` when
it does not. -/
def nodeCreate (t : Btree V) (mallocOk : Bool) (childPtr : ChildPtr) (parent : Option Addr)
    (value : V) : Option (Btree V) :=
  if mallocOk then
    let node : BtNode V :=
      { left := none, right := none, parent := parent, free := false, value := .user value }
    let t' := { t with heap := Function.update t.heap t.brk (some node), brk := t.brk + 1 }
    some (t'.store childPtr t.brk)
  else none

/-- `get_node_handle`. The recursion follows the parent pointers; `fuel` bounds it, and the
result is `none` when it runs out. -/
def getNodeHandle (heap : Addr → Option (BtNode V)) : Nat → Addr → Nat → Option Nat
  | 0, _, _ => none
  | fuel + 1, node, handleSoFar => do
      let n ← heap node
      match n.parent with
      | none => some handleSoFar
      | some p =>
          let parent ← heap p
          if parent.left = some node then getNodeHandle heap fuel p (handleSoFar * 2)
          else getNodeHandle heap fuel p (handleSoFar * 2 + 1)

/-- The loop of `bt_node_add`, from node `temp` on. The inner result is `none` when
`node_create` fails. -/
def btAddLoop (t : Btree V) (mallocOk : Bool) (value : V) (temp : Addr) (newNodeIndex : Nat) :
    Option (Option (Btree V)) :=
  if newNodeIndex = 1 then some (some t)
  else if newNodeIndex = 0 then none
  else do
    let n ← t.heap temp
    match n.child newNodeIndex with
    | none =>
        let place := if newNodeIndex % 2 = 1 then ChildPtr.right temp else ChildPtr.left temp
        some (nodeCreate t mallocOk place (some temp) value)
    | some child => btAddLoop t mallocOk value child (newNodeIndex / 2)
termination_by newNodeIndex

/-- The locked section of `bt_node_add`, without the reference count. The handle is 0 when
the allocation fails. -/
def btNodeAdd (t : Btree V) (mallocOk : Bool) (value : V) : Option (Btree V × Nat) :=
  match t.top with
  | none =>
      let t' := { t with size := 1 }
      match nodeCreate t' mallocOk .top none value with
      | none => some (t', 0)
      | some t'' => some (t'', 1)
  | some top =>
      match t.freeList with
      | some temp => do
          let n ← t.heap temp
          match n.value with
          | .user _ => none
          | .link next =>
              let t' := t.modify temp fun n => { n with value := .user value, free := false }
              let newNodeIndex ← getNodeHandle t'.heap t.brk temp 1
              some ({ t' with freeList := next, freeNodes := t.freeNodes - 1 }, newNodeIndex)
      | none => do
          match ← btAddLoop t mallocOk value top (t.size + 1) with
          | none => some (t, 0)
          | some t' => some ({ t' with size := t.size + 1 }, t.size + 1)

/-- The locked section of `bt_node_free`. -/
def btNodeFree (t : Btree V) (nodeNum : Nat) : Option (Btree V × Option V) := do
  match ← btGetNode t nodeNum with
  | none => some (t, none)
  | some a =>
      let n ← t.heap a
      let value ← n.user
      let t' := t.modify a fun n => { n with free := true, value := .link t.freeList }
      some ({ t' with freeList := some a, freeNodes := t.freeNodes + 1 }, some value)

def btIsEmpty (t : Btree V) : Bool :=
  t.freeNodes == t.size

def btNodesInUse (t : Btree V) : Nat :=
  t.size - t.freeNodes

/-- The loop of `bt_destroy`, with the number of nodes that are left. The list has the values
that the delete callback gets; every tree of the library has such a callback. -/
def btDestroyLoop (t : Btree V) : Nat → Option (Btree V × List V)
  | 0 => some ({ t with size := 0 }, [])
  | i + 1 => do
      let top ← t.top
      let temp ← btWalk t.heap top (i + 1)
      let n ← t.heap temp
      let deleted ← (if n.free then some [] else n.user.map fun v => [v])
      let r ← btDestroyLoop { t with heap := Function.update t.heap temp none, size := i } i
      some (r.1, deleted ++ r.2)

/-- `bt_destroy`. -/
def btDestroy (t : Btree V) : Option (Btree V × List V) := do
  let r ← btDestroyLoop t t.size
  some ({ r.1 with top := none, freeList := none, freeNodes := 0 }, r.2)

/-! ### Sequences of operations -/

/-- An operation on a tree, where the allocations of `bt_node_add` succeed. -/
inductive BtOp (V : Type)
  | add (v : V)
  | free (h : Nat)
  | get (h : Nat)

/-- What an operation returns. -/
inductive BtOut (V : Type)
  | handle (h : Nat)
  | value (v : Option V)

def Btree.op (t : Btree V) : BtOp V → Option (Btree V × BtOut V)
  | .add v => (btNodeAdd t true v).map fun r => (r.1, .handle r.2)
  | .free h => (btNodeFree t h).map fun r => (r.1, .value r.2)
  | .get h => (btGetNodeValue t h).map fun r => (t, .value r)

/-- Run the operations in order, and collect what they return. -/
def Btree.ops (t : Btree V) : List (BtOp V) → Option (Btree V × List (BtOut V))
  | [] => some (t, [])
  | o :: os => do
      let (t', r) ← t.op o
      let (t'', rs) ← t'.ops os
      some (t'', r :: rs)

/-! ### Sequences of operations under memory pressure -/

/-- A call on a tree, where each `bt_node_add` says whether `malloc` would succeed. -/
inductive BtCall (V : Type)
  | add (v : V) (mallocOk : Bool)
  | free (h : Nat)
  | get (h : Nat)

/-- The tree after a call. -/
def Btree.call (t : Btree V) : BtCall V → Option (Btree V)
  | .add v mallocOk => (btNodeAdd t mallocOk v).map Prod.fst
  | .free h => (btNodeFree t h).map Prod.fst
  | .get h => (btGetNodeValue t h).map fun _ => t

end

end OpenCryptoki.Common
