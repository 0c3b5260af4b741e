import Mathlib.Algebra.Order.Ring.Nat
import Mathlib.Data.List.AList

/-!
# `OpenCryptoki.Api.Hashmap`: the hash map for mechanisms

The model of `usr/lib/api/hashmap.c`, compiled without the alternative hash functions, and of
`policy_parse_mechlist` in `usr/lib/api/policy.c`, which fills such a map.

A key is stored incremented by one, so that zero marks an empty bucket. The first element of a
bucket is stored in the array of buckets, and the others in a chain. An element of a chain is a
pair of the stored key and the value.

`V` is `union hashmap_value`, and `default` is the value in fresh memory. An allocation may fail:
a function that allocates takes the outcomes of its allocations, in their order. Those that the
list does not have succeed.
-/

set_option autoImplicit false

namespace OpenCryptoki.Api

variable {V : Type}

/-- An element: a key and a value. -/
abbrev Element (V : Type) := Sigma fun _ : UInt64 => V

/-- `struct hashmap_bucket` in the array, with the chain of the other elements. -/
structure Bucket (V : Type) where
  key : UInt64
  value : V
  next : List (Element V)

/-- `struct hashmap`. The array of buckets has `capa` elements. -/
structure Hashmap (V : Type) where
  buckets : Option (Nat → Bucket V)
  size : Nat
  capa : Nat

def HASH_DEFAULT_CAPA : Nat := 16

/-- `hash`. -/
def hash (capa : Nat) (value : UInt64) : Nat := value.toNat &&& (capa - 1)

/-- `hashmap_new`. -/
def hashmapNew : Hashmap V := { buckets := none, size := 0, capa := 0 }

/-- The outcome of the next allocation, and the remaining outcomes. -/
def malloc : List Bool → Bool × List Bool
  | []        => (true, [])
  | b :: mem  => (b, mem)

/-- `freebucketchain` and `freebuckets`: the values that are passed to the free function. -/
def freebuckets (buckets : Nat → Bucket V) (size : Nat) : List V :=
  (List.range size).flatMap fun i => (buckets i).next.map Sigma.snd

/-- `hashmap_free`: the values that are passed to the free function. -/
def hashmapFree (h : Hashmap V) : List V :=
  match h.buckets with
  | none         => []
  | some buckets => freebuckets buckets h.capa

/-- `do_add`: the array with the new element, or `none` if there is no memory for it. -/
def doAdd (buckets : Nat → Bucket V) (size : Nat) (key : UInt64) (val : V) (mem : List Bool) :
    Option (Nat → Bucket V) × List Bool :=
  let hval := hash size key
  let b := buckets hval
  if b.key ≠ 0 then
    match malloc mem with
    | (false, mem) => (none, mem)
    | (true, mem)  =>
      (some (Function.update buckets hval { b with next := ⟨key, val⟩ :: b.next }), mem)
  else (some (Function.update buckets hval { b with key := key, value := val }), mem)

/-- The elements that `grow` finds in a bucket. -/
def Bucket.walk (b : Bucket V) : List (Element V) :=
  if b.key ≠ 0 then ⟨b.key, b.value⟩ :: b.next else []

/-- The elements of all buckets. -/
def walkBuckets (buckets : Nat → Bucket V) (capa : Nat) : List (Element V) :=
  (List.range capa).flatMap fun i => (buckets i).walk

/-- The loops of `grow` that add every element to the new array. -/
def addAll (newcapa : Nat) : List (Element V) → (Nat → Bucket V) → List Bool →
    Option (Nat → Bucket V) × List Bool
  | [], newarr, mem           => (some newarr, mem)
  | e :: elements, newarr, mem =>
    match doAdd newarr newcapa e.1 e.2 mem with
    | (none, mem)        => (none, mem)
    | (some newarr, mem) => addAll newcapa elements newarr mem

/-- The elements of the map. -/
def Hashmap.walk (h : Hashmap V) : List (Element V) :=
  match h.buckets with
  | none         => []
  | some buckets => walkBuckets buckets h.capa

/-- `grow`: the larger map, or `none` if it fails. -/
def grow [Inhabited V] (h : Hashmap V) (mem : List Bool) : Option (Hashmap V) × List Bool :=
  let newcapa := if h.capa ≠ 0 then (h.capa <<< 1) % 2 ^ 32 else HASH_DEFAULT_CAPA
  if newcapa < h.capa then (none, mem)
  else
    match malloc mem with
    | (false, mem) => (none, mem)
    | (true, mem)  =>
      match addAll newcapa h.walk (fun _ => { key := 0, value := default, next := [] }) mem with
      | (none, mem)        => (none, mem)
      | (some newarr, mem) => (some { h with buckets := some newarr, capa := newcapa }, mem)

/-- The value of the element with the stored key, in one bucket. -/
def Bucket.find (b : Bucket V) (key : UInt64) : Option V :=
  if b.key = key then some b.value else b.next.dlookup key

/-- The bucket after the value of the element with the stored key has been replaced. -/
def Bucket.set (b : Bucket V) (key : UInt64) (val : V) : Bucket V :=
  if b.key = key then { b with value := val }
  else { b with next := b.next.kreplace key val }

/-- `hashmap_findbucket`: the value in the element that is found. -/
def hashmapFindbucket (h : Hashmap V) (key : UInt64) : Option V :=
  match h.buckets with
  | none         => none
  | some buckets => (buckets (hash h.capa (key + 1))).find (key + 1)

/-- `hashmap_find`: what it returns, and what it stores to `*val`. A map that does not exist
contains everything. -/
def hashmapFind (h : Option (Hashmap V)) (key : UInt64) : Bool × Option V :=
  match h with
  | none   => (true, none)
  | some h => ((hashmapFindbucket h key).isSome, hashmapFindbucket h key)

/-- What `hashmap_add` returns: whether it has failed, the map, and what it stores to
`*oldval`. -/
structure AddResult (V : Type) where
  failed : Bool
  map : Hashmap V
  oldval : Option V

/-- The map after the value of an element that has been found is replaced. -/
def Hashmap.replace (h : Hashmap V) (key : UInt64) (val : V) : Hashmap V :=
  match h.buckets with
  | none         => h
  | some buckets =>
    let hval := hash h.capa (key + 1)
    { h with
      buckets := some (Function.update buckets hval ((buckets hval).set (key + 1) val)) }

/-- The end of `hashmap_add`, when there is room. -/
def addToBuckets (h : Hashmap V) (key : UInt64) (val : V) (mem : List Bool) : AddResult V :=
  match h.buckets with
  | none         => ⟨true, h, none⟩
  | some buckets =>
    match doAdd buckets h.capa (key + 1) val mem with
    | (none, _)         => ⟨true, h, none⟩
    | (some buckets, _) =>
      ⟨false, { h with buckets := some buckets, size := (h.size + 1) % 2 ^ 32 }, none⟩

/-- `hashmap_add`. -/
def hashmapAdd [Inhabited V] (h : Hashmap V) (key : UInt64) (val : V) (mem : List Bool) :
    AddResult V :=
  match hashmapFindbucket h key with
  | some old => ⟨false, h.replace key val, some old⟩
  | none     =>
    -- The fill factor is 0.75.
    if h.capa - h.capa / 4 < (h.size + 1) % 2 ^ 32 then
      match grow h mem with
      | (none, _)     => ⟨true, h, none⟩
      | (some h, mem) => addToBuckets h key val mem
    else addToBuckets h key val mem

/-- The bucket after the element with the stored key has been deleted, if it was there, and the
value of that element. -/
def Bucket.delete (b : Bucket V) (key : UInt64) : Option V × Bucket V :=
  if b.key = key then
    match b.next with
    | []      => (some b.value, { b with key := 0 })
    | e :: es => (some b.value, { key := e.1, value := e.2, next := es })
  else (b.next.dlookup key, { b with next := b.next.kerase key })

/-- `hashmap_delete`: what it returns, what it stores to `*val`, and the map. -/
def hashmapDelete (h : Hashmap V) (key : UInt64) : Bool × Option V × Hashmap V :=
  match h.buckets with
  | none         => (false, none, h)
  | some buckets =>
    let hval := hash h.capa (key + 1)
    let r := (buckets hval).delete (key + 1)
    (r.1.isSome, r.1, { h with
        buckets := some (Function.update buckets hval r.2)
        size := if r.1.isSome then (h.size + 2 ^ 32 - 1) % 2 ^ 32 else h.size })

/-! ### The list of mechanisms of a policy -/

/-- The return values of `policy_parse_mechlist`. -/
inductive MechlistRv
  | ok
  | unknownMechanism
  | hostMemory
  deriving DecidableEq, Repr

/-- The loop of `policy_parse_mechlist` over the keywords of the list, with the outcomes of the
allocations of each turn. `translate` is `translate_string_to_mech`. -/
def parseMechs [Inhabited V] (translate : String → Option UInt64) :
    List (String × List Bool) → Hashmap V → MechlistRv × Hashmap V
  | [], h                     => (.ok, h)
  | (mechstr, mem) :: list, h =>
    match translate mechstr with
    | none      => (.unknownMechanism, h)
    | some mech =>
      let r := hashmapAdd h mech default mem
      if r.failed then (.hostMemory, r.map) else parseMechs translate list r.map

/-- `policy_parse_mechlist`: what it returns, and `pp->allowedmechs`. -/
def policyParseMechlist [Inhabited V] (translate : String → Option UInt64)
    (list : List (String × List Bool)) : MechlistRv × Hashmap V :=
  parseMechs translate list hashmapNew

end OpenCryptoki.Api
