import OpenCryptoki.Common.Pkcs11

/-!
# `OpenCryptoki.Common.TokObjList`: the token object lists in shared memory

The shared memory of a token has a list of its private token objects and one of its public token
objects. A list is an array of `MAX_TOK_OBJS` entries and the number of entries in use. The
functions of `obj_mgr.c` that add, delete and look up an entry run under the process lock, so a call
is one step. Each process keeps, in its `OBJECT`, the index at which it found the entry last.

An access behind the array is a fault. Names are the 8 bytes of a file name, and whether an object
is private is a fixed property of its name.
-/

set_option autoImplicit false

namespace OpenCryptoki.Common

open Lib

def MAX_TOK_OBJS : Nat := 2048

/-- The name of a token object. -/
abbrev ObjName := Vector UInt8 8

/-- `TOK_OBJ_ENTRY`. -/
structure TokObjEntry where
  countLo : Nat
  countHi : Nat
  name : ObjName
  deriving DecidableEq

/-- An entry with zeros only. -/
def zeroEntry : TokObjEntry := ⟨0, 0, Vector.replicate 8 0⟩

/-- One of the two lists, for example `num_priv_tok_obj` and `priv_tok_objs`. What `objs` gives for
an index of `MAX_TOK_OBJS` or more is memory behind the array. -/
structure TokObjList where
  num : Nat
  objs : Nat → TokObjEntry

/-- An access to an entry. -/
def checkIndex (index : Nat) : Except Stop Unit :=
  access (if index < MAX_TOK_OBJS then some () else none)

/-- The loop of `object_mgr_search_shm_for_obj`, from `idx` on for `k` entries. -/
def searchLoop (l : TokObjList) (name : ObjName) (idx : Nat) : Nat → Except Stop Nat
  | 0     => .error (.rc .objectHandleInvalid)
  | k + 1 => do
      checkIndex idx
      if (l.objs idx).name = name then .ok idx else searchLoop l name (idx + 1) k

/-- `object_mgr_search_shm_for_obj`. The argument `index` is `obj->index`, and the result is also
the new value of it. -/
def objectMgrSearchShmForObj (l : TokObjList) (hi : Nat) (name : ObjName) (index : Nat) :
    Except Stop Nat :=
  if index = 0 then searchLoop l name 0 (hi + 1)
  else do
    checkIndex index
    if (l.objs index).name = name then .ok index else searchLoop l name 0 (hi + 1)

/-- `object_mgr_get_shm_entry_for_obj`. It gives the index of the entry. -/
def objectMgrGetShmEntryForObj (l : TokObjList) (name : ObjName) (index : Nat) :
    Except Stop Nat := do
  check (l.num ≠ 0) .objectHandleInvalid
  objectMgrSearchShmForObj l (l.num - 1) name index

/-- `memmove` of the `count` entries behind `index` to `index`. -/
def TokObjList.memmove (l : TokObjList) (index count : Nat) : Except Stop TokObjList := do
  checkIndex (index + count)
  return { l with
    objs := fun i => if index ≤ i ∧ i < index + count then l.objs (i + 1) else l.objs i }

/-- `memset` of an entry. -/
def TokObjList.memset (l : TokObjList) (index : Nat) : Except Stop TokObjList := do
  checkIndex index
  return { l with objs := Function.update l.objs index zeroEntry }

/-- The part of `object_mgr_del_from_shm` that takes the entry at `index` out of the list. -/
def TokObjList.delete (l : TokObjList) (index : Nat) : Except Stop TokObjList :=
  let num := l.num - 1
  let count := if index > num then index - num else num - index
  if count > 0 then do
    let l ← { l with num := num }.memmove index count
    l.memset (num + 1)
  else { l with num := num }.memset num

/-- `object_mgr_del_from_shm`. It gives the new value of `obj->index` and the new list. -/
def objectMgrDelFromShm (l : TokObjList) (name : ObjName) (index : Nat) :
    Except Stop (Nat × TokObjList) := do
  check (l.num ≠ 0) .objectHandleInvalid
  let index ← objectMgrSearchShmForObj l (l.num - 1) name index
  let l ← l.delete index
  return (index, l)

/-- `object_mgr_add_to_shm`, with the check that all its callers make under the same lock. -/
def objectMgrAddToShm (l : TokObjList) (name : ObjName) : Except Stop (Nat × TokObjList) := do
  check (l.num < MAX_TOK_OBJS) .hostMemory
  checkIndex l.num
  return (l.num, { num := l.num + 1, objs := Function.update l.objs l.num ⟨0, 0, name⟩ })

/-! ### The processes -/

/-- The lists, and the `index` field of every object of every process. -/
structure ShmSystem (Proc : Type) where
  list : Bool → TokObjList
  index : Proc → ObjName → Nat

/-- A call by a process. `create` allocates the `OBJECT` structure anew, for example when a process
starts. -/
inductive ShmCall (Proc : Type)
  | create (p : Proc) (name : ObjName)
  | add (p : Proc) (name : ObjName)
  | del (p : Proc) (name : ObjName)
  | get (p : Proc) (name : ObjName)

section System

variable {Proc : Type} [DecidableEq Proc] (isPrivate : ObjName → Bool)

/-- Empty lists, and no index is known. -/
def ShmSystem.init : ShmSystem Proc where
  list _ := ⟨0, fun _ => zeroEntry⟩
  index _ _ := 0

def ShmSystem.setIndex (s : ShmSystem Proc) (p : Proc) (name : ObjName) (index : Nat) :
    ShmSystem Proc :=
  { s with index := Function.update s.index p (Function.update (s.index p) name index) }

def ShmSystem.setList (s : ShmSystem Proc) (priv : Bool) (l : TokObjList) : ShmSystem Proc :=
  { s with list := Function.update s.list priv l }

/-- What a call does. -/
def ShmSystem.call (s : ShmSystem Proc) : ShmCall Proc → Except Stop (ShmSystem Proc)
  | .create p name => .ok (s.setIndex p name 0)
  | .add p name => do
      let (index, l) ← objectMgrAddToShm (s.list (isPrivate name)) name
      return (s.setList (isPrivate name) l).setIndex p name index
  | .del p name => do
      let (index, l) ← objectMgrDelFromShm (s.list (isPrivate name)) name (s.index p name)
      return (s.setList (isPrivate name) l).setIndex p name index
  | .get p name => do
      let index ← objectMgrGetShmEntryForObj (s.list (isPrivate name)) name (s.index p name)
      return s.setIndex p name index

/-- One step of the system. A call that returns an error changes nothing, and nothing is known
after a fault. -/
def ShmSystem.step (s : ShmSystem Proc) (c : ShmCall Proc) : Option (ShmSystem Proc) :=
  match s.call isPrivate c with
  | .ok s'           => some s'
  | .error (.rc _)   => some s
  | .error .fault    => none

end System

end OpenCryptoki.Common
