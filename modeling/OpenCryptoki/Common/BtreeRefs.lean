import OpenCryptoki.Common.Btree

/-!
# `OpenCryptoki.Common.BtreeRefs`: threads that share the values of a tree

The model of the reference counts of `usr/lib/common/btree.c`. Any number of threads work on
one tree. A mutex-protected section is one step, and so is each access to a reference count
outside of it: `bt_put_node_value` first reads the count, then decrements it atomically, and
then calls `delete_func`, in three steps.

A value is named by a number, in the order in which the values were added. A thread obtains a
value from `bt_get_node_value`, or from `bt_node_free` when it does not put it there. It may
call `bt_put_node_value` only for a value that it obtained and has not put yet.
-/

set_option autoImplicit false

namespace OpenCryptoki.Common

/-- Where a thread stands in `bt_put_node_value`. -/
inductive PutPc
  /-- Not in `bt_put_node_value`. -/
  | idle
  /-- About to test whether the count is positive. -/
  | check (v : Nat)
  /-- About to decrement the count. -/
  | sub (v : Nat)
  /-- About to call `delete_func`. -/
  | delete (v : Nat)
  deriving DecidableEq

/-- A tree, the values that were added to it so far, and the threads. `deleted` counts the calls
of `delete_func`, and `held` has the values that a thread obtained and has not put. -/
structure RefSys (P : Type) where
  tree : Btree Nat
  nextValue : Nat
  ref : Nat → Nat
  deleted : Nat → Nat
  held : P → List Nat
  pc : P → PutPc

/-- A new tree, before any thread has obtained a value. -/
def RefSys.init (P : Type) : RefSys P where
  tree := btInit Nat
  nextValue := 0
  ref _ := 0
  deleted _ := 0
  held _ := []
  pc _ := .idle

/-- One step of a thread: a call of `bt_node_add` with a new value, of `bt_get_node_value`, of
`bt_node_free` or of `bt_put_node_value`, or the next step of the last one. -/
inductive RefAction (P : Type)
  | add (p : P)
  | get (p : P) (h : Nat)
  | free (p : P) (h : Nat) (put : Bool)
  | put (p : P) (v : Nat)
  | run (p : P)

/-- `__sync_sub_and_fetch` of 1 on an `unsigned long`. -/
def subAndFetch (ref : Nat) : Nat :=
  if ref = 0 then 2 ^ 64 - 1 else ref - 1

section

variable {P : Type} [DecidableEq P]

/-- The thread goes on at another place. -/
def RefSys.setPc (s : RefSys P) (p : P) (pc : PutPc) : RefSys P :=
  { s with pc := Function.update s.pc p pc }

/-- The thread holds other values. -/
def RefSys.setHeld (s : RefSys P) (p : P) (vs : List Nat) : RefSys P :=
  { s with held := Function.update s.held p vs }

/-- A new reference count. -/
def RefSys.setRef (s : RefSys P) (v ref : Nat) : RefSys P :=
  { s with ref := Function.update s.ref v ref }

/-- `bt_node_add` with a value that was not added before. -/
def RefSys.add (s : RefSys P) : Option (RefSys P) :=
  (btNodeAdd s.tree true s.nextValue).map fun r =>
    { s.setRef s.nextValue 1 with tree := r.1, nextValue := s.nextValue + 1 }

/-- `bt_get_node_value`. `__sync_add_and_fetch` counts mod `2 ^ 64`, and the model does not: fewer
than `2 ^ 64` references to a value are outstanding at any time. -/
def RefSys.get (s : RefSys P) (p : P) (h : Nat) : Option (RefSys P) :=
  (btGetNodeValue s.tree h).map fun
    | none => s
    | some v => (s.setRef v (s.ref v + 1)).setHeld p (v :: s.held p)

/-- `bt_node_free` up to its call of `bt_put_node_value`. When it does not put the value, the
caller obtains it. -/
def RefSys.free (s : RefSys P) (p : P) (h : Nat) (put : Bool) : Option (RefSys P) :=
  (btNodeFree s.tree h).map fun
    | (t, none) => { s with tree := t }
    | (t, some v) =>
        let s' := { s with tree := t }
        if put then s'.setPc p (.check v) else s'.setHeld p (v :: s.held p)

/-- The next step of `bt_put_node_value`. -/
def RefSys.putStep (s : RefSys P) (p : P) : PutPc → Option (RefSys P)
  | .idle => none
  | .check v => some (s.setPc p (if s.ref v > 0 then .sub v else .delete v))
  | .sub v =>
      let ref := subAndFetch (s.ref v)
      some ((s.setRef v ref).setPc p (if ref = 0 then .delete v else .idle))
  | .delete v =>
      some { s.setPc p .idle with deleted := Function.update s.deleted v (s.deleted v + 1) }

/-- One step. A thread calls a function only when it is not in another one. -/
def RefSys.step (s : RefSys P) : RefAction P → Option (RefSys P)
  | .add p => if s.pc p = .idle then s.add else none
  | .get p h => if s.pc p = .idle then s.get p h else none
  | .free p h put => if s.pc p = .idle then s.free p h put else none
  | .put p v =>
      if s.pc p = .idle ∧ v ∈ s.held p then
        some ((s.setHeld p ((s.held p).erase v)).setPc p (.check v))
      else none
  | .run p => s.putStep p (s.pc p)

end

end OpenCryptoki.Common
