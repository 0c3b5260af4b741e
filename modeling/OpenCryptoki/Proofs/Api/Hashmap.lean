import OpenCryptoki.Api.Hashmap
import OpenCryptoki.Lib.Buckets
import Mathlib.Algebra.Order.BigOperators.Group.List

/-!
# `OpenCryptoki.Proofs.Api.Hashmap`: the hash map against a finite map

The specification of a hash map is a finite map from keys to values (`FiniteMap`). `Op.step` makes
one step of both, and `Op.Right` says that the answer of the hash map is that of the finite map.

`Represents` relates the two: the elements in the buckets are those of the finite map with their
keys incremented, every element is in the bucket of its hash, and an empty first element has no
chain. Every operation keeps this relation as long as its key is not the largest one
(`Represents.step`), and under the relation every answer is right (`Represents.right`).

The largest key is stored as zero, which is how an empty bucket looks.
`hashmap_refines_iff` states this limit, and that `hashmap_free` misses the first element of every
bucket.
-/

set_option autoImplicit false

namespace OpenCryptoki.Proofs.Api

open Lib OpenCryptoki.Api List
open Function (update)

variable {V : Type}

/-! ### The specification -/

/-- What the map is for: a finite map from keys to values. -/
abbrev FiniteMap (V : Type) := AList fun _ : UInt64 => V

/-- A call of an operation. -/
inductive Op (V : Type)
  | add (key : UInt64) (val : V) (mem : List Bool)
  | delete (key : UInt64)
  | find (key : UInt64)

/-- The key of a call. -/
def Op.key : Op V → UInt64
  | .add key _ _ => key
  | .delete key  => key
  | .find key    => key

/-- The hash map and the finite map after a call. If the call fails, the finite map stays. -/
def Op.step [Inhabited V] (s : Hashmap V × FiniteMap V) : Op V → Hashmap V × FiniteMap V
  | .add key val mem =>
    let r := hashmapAdd s.1 key val mem
    (r.map, if r.failed then s.2 else s.2.insert key val)
  | .delete key      => ((hashmapDelete s.1 key).2.2, s.2.erase key)
  | .find _          => s

/-- The hash map answers the call as the finite map does. -/
def Op.Right [Inhabited V] (s : Hashmap V × FiniteMap V) : Op V → Prop
  | .add key val mem =>
    (hashmapAdd s.1 key val mem).failed = false →
      (hashmapAdd s.1 key val mem).oldval = s.2.lookup key
  | .delete key      =>
    (hashmapDelete s.1 key).1 = (s.2.lookup key).isSome ∧
      (hashmapDelete s.1 key).2.1 = s.2.lookup key
  | .find key        => hashmapFind (some s.1) key = ((s.2.lookup key).isSome, s.2.lookup key)

/-- The two maps after a sequence of calls on a new map. -/
def runOps [Inhabited V] (ops : List (Op V)) : Hashmap V × FiniteMap V :=
  ops.foldl Op.step (hashmapNew, ∅)

/-- After every sequence of calls with keys from `K`, the size is the number of keys, and every
further call with a key from `K` is answered right. -/
def AllRight (V : Type) [Inhabited V] (K : Set UInt64) : Prop :=
  ∀ ops : List (Op V), (∀ op ∈ ops, op.key ∈ K) → (runOps ops).1.size = (runOps ops).2.keys.length ∧
      ∀ op : Op V, op.key ∈ K → op.Right (runOps ops)

/-- The largest key. -/
def MAX_KEY : UInt64 := 0xffffffffffffffff

/-! ### One bucket -/

/-- The stored key is zero for the largest key only. -/
theorem add_one_ne_zero {key : UInt64} (h : key ≠ MAX_KEY) : key + 1 ≠ 0 := by
  intro h0
  refine h ?_
  have h1 : key + 1 - 1 = 0 - 1 := by rw [h0]
  rwa [UInt64.add_sub_cancel] at h1

/-- A hash is an index of a bucket. -/
theorem hash_lt {capa : Nat} (h : 0 < capa) (key : UInt64) : hash capa key < capa := by
  have hle : hash capa key ≤ capa - 1 := Nat.and_le_right
  omega

/-- The bucket `i` of an array: without a first element there is no chain, and the stored keys are
not zero and belong here. -/
structure BucketOk (capa i : Nat) (b : Bucket V) : Prop where
  root : b.key = 0 → b.next = []
  place : ∀ e ∈ b.walk, e.1 ≠ 0 ∧ hash capa e.1 = i

namespace Bucket

variable {b : Bucket V} {capa i : Nat} {key : UInt64} {val : V}

/-- A bucket whose first element is empty has no elements. -/
theorem walk_eq_nil (h : b.key = 0) : b.walk = [] := by
  simp [Bucket.walk, h]

/-- The first element and its chain. -/
theorem walk_eq_cons (h : b.key ≠ 0) : b.walk = ⟨b.key, b.value⟩ :: b.next := by
  simp [Bucket.walk, h]

/-- The chain belongs to the bucket. -/
theorem mem_walk_of_mem_next (h : b.key ≠ 0) {e : Element V} (he : e ∈ b.next) : e ∈ b.walk := by
  rw [walk_eq_cons h]
  exact mem_cons_of_mem _ he

section
variable (hb : BucketOk capa i b) (hkey : key ≠ 0)
include hb hkey

/-- The search in a bucket is a lookup among its elements. -/
theorem find_eq : b.find key = b.walk.dlookup key := by
  unfold Bucket.find
  by_cases h0 : b.key = 0
  · rw [if_neg (h0 ▸ hkey.symm), walk_eq_nil h0, hb.root h0]
  · rw [walk_eq_cons h0]
    by_cases hk : b.key = key
    · subst hk
      rw [if_pos rfl, dlookup_cons_eq]
    · rw [if_neg hk]
      exact (dlookup_cons_ne b.next ⟨b.key, b.value⟩ (Ne.symm hk)).symm

/-- A deletion returns what a lookup finds. -/
theorem delete_fst : (b.delete key).1 = b.walk.dlookup key := by
  rw [← find_eq hb hkey]
  unfold Bucket.delete Bucket.find
  split
  · cases b.next <;> rfl
  · rfl

/-- A deletion erases the first element with the key. -/
theorem delete_walk : (b.delete key).2.walk = b.walk.kerase key := by
  unfold Bucket.delete
  by_cases h0 : b.key = 0
  · rw [if_neg (h0 ▸ hkey.symm), walk_eq_nil h0, walk_eq_nil (by exact h0)]
    rfl
  · by_cases hk : b.key = key
    · rw [if_pos hk, walk_eq_cons h0, kerase_cons_eq hk.symm]
      cases hnext : b.next with
      | nil => exact walk_eq_nil rfl
      | cons e es =>
        -- The first element of the chain has moved into the array.
        have hmem : e ∈ b.walk := mem_walk_of_mem_next h0 (hnext ▸ mem_cons_self)
        exact walk_eq_cons (hb.place e hmem).1
    · rw [if_neg hk, walk_eq_cons h0, kerase_cons_ne (Ne.symm hk), walk_eq_cons (by exact h0)]

end

/-- A new value replaces the old one. -/
theorem set_walk (hkey : key ≠ 0) : (b.set key val).walk = b.walk.kreplace key val := by
  unfold Bucket.set
  by_cases h0 : b.key = 0
  · rw [if_neg (h0 ▸ hkey.symm), walk_eq_nil h0, walk_eq_nil (by exact h0)]
    rfl
  · rw [walk_eq_cons h0]
    by_cases hk : b.key = key
    · subst hk
      rw [if_pos rfl, walk_eq_cons (by exact h0)]
      exact (lookmap_cons_some _ b.next (if_pos rfl)).symm
    · rw [if_neg hk, walk_eq_cons (by exact h0)]
      exact (lookmap_cons_none _ b.next (if_neg (Ne.symm hk))).symm

/-- The bucket after `do_add` has put a new element into it. -/
def push (b : Bucket V) (key : UInt64) (val : V) : Bucket V :=
  if b.key ≠ 0 then { b with next := ⟨key, val⟩ :: b.next }
  else { b with key := key, value := val }

/-- A bucket with a new element is not empty. -/
theorem push_key_ne_zero (b : Bucket V) (hkey : key ≠ 0) : (push b key val).key ≠ 0 := by
  unfold push
  by_cases h0 : b.key ≠ 0
  · rw [if_pos h0]
    exact h0
  · rw [if_neg h0]
    exact hkey

/-- A new element is added to those of the bucket. -/
theorem push_walk (hb : BucketOk capa i b) (hkey : key ≠ 0) :
    (push b key val).walk.Perm (⟨key, val⟩ :: b.walk) := by
  rw [walk_eq_cons (push_key_ne_zero b hkey)]
  unfold push
  by_cases h0 : b.key = 0
  · rw [if_neg (not_not.mpr h0), walk_eq_nil h0, hb.root h0]
  · -- The new element is the first one of the chain, behind the one in the array.
    rw [if_pos h0, walk_eq_cons h0]
    exact .swap _ _ _

end Bucket

namespace BucketOk

variable {b : Bucket V} {capa i : Nat} {key : UInt64} {val : V}

section
variable (hb : BucketOk capa i b) (hkey : key ≠ 0)
include hb hkey

/-- A deletion keeps the bucket in order. -/
theorem delete : BucketOk capa i (b.delete key).2 := by
  refine ⟨?_, fun e he => ?_⟩
  · unfold Bucket.delete
    by_cases hk : b.key = key
    · rw [if_pos hk]
      cases hnext : b.next with
      | nil => exact fun _ => rfl
      | cons e es =>
        have hmem : e ∈ b.walk :=
          Bucket.mem_walk_of_mem_next (hk ▸ hkey) (hnext ▸ mem_cons_self)
        exact fun h0 => absurd h0 (hb.place e hmem).1
    · rw [if_neg hk]
      intro h0
      show b.next.kerase key = []
      rw [hb.root h0, kerase_nil]
  · rw [Bucket.delete_walk hb hkey] at he
    exact hb.place e ((kerase_sublist key _).subset he)

/-- A new value keeps the bucket in order. -/
theorem set : BucketOk capa i (b.set key val) := by
  refine ⟨?_, fun e he => ?_⟩
  · unfold Bucket.set
    by_cases hk : b.key = key
    · rw [if_pos hk]
      exact fun h0 => absurd h0 (hk ▸ hkey)
    · rw [if_neg hk]
      intro h0
      show b.next.kreplace key val = []
      rw [hb.root h0]
      rfl
  · have hkeys : e.1 ∈ b.walk.keys := by
      rw [← keys_kreplace key val, ← Bucket.set_walk hkey]
      exact mem_keys_of_mem he
    obtain ⟨v, hv⟩ := mem_keys.mp hkeys
    exact hb.place ⟨e.1, v⟩ hv

/-- A new element of the right hash keeps the bucket in order. -/
theorem push (hhash : hash capa key = i) : BucketOk capa i (Bucket.push b key val) := by
  refine ⟨fun h0 => absurd h0 (Bucket.push_key_ne_zero b hkey), fun e he => ?_⟩
  rcases mem_cons.mp ((Bucket.push_walk hb hkey).mem_iff.mp he) with rfl | he
  · exact ⟨hkey, hhash⟩
  · exact hb.place e he

end

end BucketOk

/-! ### The array of buckets -/

/-- Every bucket of an array is in order. -/
def WellFormed (buckets : Nat → Bucket V) (capa : Nat) : Prop :=
  ∀ i < capa, BucketOk capa i (buckets i)

variable {buckets : Nat → Bucket V}

/-- A bucket in order may be put in place of another. -/
theorem WellFormed.update {capa i : Nat} {b : Bucket V} (h : WellFormed buckets capa)
    (hb : BucketOk capa i b) :
    WellFormed (update buckets i b) capa := by
  intro j hj
  by_cases hji : j = i
  · subst hji
    rwa [Function.update_self]
  · rw [Function.update_of_ne hji]
    exact h j hj

/-- The elements of all buckets, joined. -/
theorem walkBuckets_eq (buckets : Nat → Bucket V) (capa : Nat) :
    walkBuckets buckets capa = joined (Bucket.walk ∘ buckets) capa := rfl

/-- The elements after one bucket has changed. -/
theorem walkBuckets_update (buckets : Nat → Bucket V) (capa i : Nat) (b : Bucket V) :
    walkBuckets (update buckets i b) capa =
      joined (update (Bucket.walk ∘ buckets) i b.walk) capa := by
  rw [walkBuckets_eq, Function.comp_update]

/-- A key is only in the bucket of its hash. -/
theorem WellFormed.only {capa : Nat} (h : WellFormed buckets capa) (key : UInt64) :
    Only (Bucket.walk ∘ buckets) capa (hash capa key) key := by
  intro j hj hne hk
  obtain ⟨v, hv⟩ := mem_keys.mp hk
  exact hne ((h j hj).place _ hv).2.symm

/-- No element is stored under zero. -/
theorem WellFormed.key_ne_zero {capa : Nat} (h : WellFormed buckets capa) :
    ∀ e ∈ walkBuckets buckets capa, e.1 ≠ 0 := by
  intro e he
  obtain ⟨i, hi, hmem⟩ := mem_joined.mp he
  exact ((h i hi).place e hmem).1

/-- `do_add` puts the element into the bucket of its hash, or it fails. -/
theorem doAdd_fst (buckets : Nat → Bucket V) (capa : Nat) (key : UInt64) (val : V)
    (mem : List Bool) :
    (doAdd buckets capa key val mem).1 = none ∨
      (doAdd buckets capa key val mem).1 = some (update buckets (hash capa key)
        (Bucket.push (buckets (hash capa key)) key val)) := by
  unfold doAdd Bucket.push
  by_cases h0 : (buckets (hash capa key)).key ≠ 0
  · rw [if_pos h0, if_pos h0]
    cases malloc mem with
    | mk ok rest =>
      cases ok with
      | false => exact .inl rfl
      | true => exact .inr rfl
  · rw [if_neg h0, if_neg h0]
    exact .inr rfl

/-- What `do_add` does when it does not fail. -/
theorem doAdd_some {buckets' : Nat → Bucket V} {capa : Nat} (hcapa : 0 < capa)
    (h : WellFormed buckets capa) {key : UInt64} (hkey : key ≠ 0) {val : V} {mem mem' : List Bool}
    (hadd : doAdd buckets capa key val mem = (some buckets', mem')) :
    WellFormed buckets' capa ∧
      (walkBuckets buckets' capa).Perm (⟨key, val⟩ :: walkBuckets buckets capa) := by
  have hlt := hash_lt hcapa key
  have hb := h _ hlt
  have hcases := doAdd_fst buckets capa key val mem
  rw [hadd] at hcases
  obtain hnone | hsome := hcases
  · cases hnone
  · cases hsome
    refine ⟨h.update (hb.push hkey rfl), ?_⟩
    rw [walkBuckets_update]
    refine (joined_update_perm _ hlt _).trans
      (((Bucket.push_walk hb hkey).append_right _).trans ?_)
    exact (joined_perm (Bucket.walk ∘ buckets) hlt).symm.cons _

/-- What the loops of `grow` do when they do not fail. -/
theorem addAll_some {capa : Nat} (hcapa : 0 < capa) {elements : List (Element V)}
    (hkeys : ∀ e ∈ elements, e.1 ≠ 0) :
    ∀ {buckets buckets' : Nat → Bucket V} {mem mem' : List Bool}, WellFormed buckets capa →
      addAll capa elements buckets mem = (some buckets', mem') →
      WellFormed buckets' capa ∧
        (walkBuckets buckets' capa).Perm (elements ++ walkBuckets buckets capa) := by
  induction elements with
  | nil =>
    intro buckets buckets' mem mem' h hadd
    cases hadd
    exact ⟨h, .refl _⟩
  | cons e elements ih =>
    intro buckets buckets' mem mem' h hadd
    unfold addAll at hadd
    cases hone : doAdd buckets capa e.1 e.2 mem with
    | mk newarr rest =>
      rw [hone] at hadd
      cases newarr with
      | none => cases hadd
      | some newarr =>
        obtain ⟨hwf, hperm⟩ := doAdd_some hcapa h (hkeys e mem_cons_self) hone
        obtain ⟨hwf', hperm'⟩ :=
          ih (fun e' he' => hkeys e' (mem_cons_of_mem e he')) hwf hadd
        refine ⟨hwf', hperm'.trans ((hperm.append_left elements).trans ?_)⟩
        exact perm_middle

/-! ### The map -/

/-- A map between two calls: an array, if there is one, is in order and not too full. -/
structure Hashmap.Inv (h : Hashmap V) : Prop where
  empty : h.buckets = none → h.capa = 0
  capa : ∀ buckets, h.buckets = some buckets → HASH_DEFAULT_CAPA ≤ h.capa
  capa_lt : h.capa < 2 ^ 32
  buckets : ∀ buckets, h.buckets = some buckets → WellFormed buckets h.capa
  nodup : h.walk.NodupKeys
  size : h.size = h.walk.length
  room : h.size ≤ h.capa - h.capa / 4

/-- The invariant of a map with an array, from its elements in any order. -/
theorem Hashmap.Inv.of_buckets {size capa : Nat} (hcapa : HASH_DEFAULT_CAPA ≤ capa)
    (hlt : capa < 2 ^ 32) (hwf : WellFormed buckets capa) {l : List (Element V)}
    (hperm : (walkBuckets buckets capa).Perm l) (hnd : l.NodupKeys) (hsize : size = l.length)
    (hroom : size ≤ capa - capa / 4) :
    Hashmap.Inv { buckets := some buckets, size := size, capa := capa } where
  empty h := by cases h
  capa _ _ := hcapa
  capa_lt := hlt
  buckets b hb := by
    cases hb
    exact hwf
  nodup := (perm_nodupKeys hperm).mpr hnd
  size := hsize.trans hperm.length_eq.symm
  room := hroom

/-- The elements of a map that has buckets. -/
theorem Hashmap.walk_of_some {h : Hashmap V} (hb : h.buckets = some buckets) :
    h.walk = walkBuckets buckets h.capa := by
  simp only [Hashmap.walk, hb]

/-- A map without buckets has no elements. -/
theorem Hashmap.walk_of_none {h : Hashmap V} (hb : h.buckets = none) : h.walk = [] := by
  simp only [Hashmap.walk, hb]

namespace Hashmap.Inv

variable {h : Hashmap V} {key : UInt64} {val : V}

/-- No element of the map is stored under zero. -/
theorem key_ne_zero (hh : Hashmap.Inv h) : ∀ e ∈ h.walk, e.1 ≠ 0 := by
  cases hb : h.buckets with
  | none =>
    rw [Hashmap.walk_of_none hb]
    exact fun e he => by cases he
  | some buckets =>
    rw [Hashmap.walk_of_some hb]
    exact (hh.buckets buckets hb).key_ne_zero

/-- A map with buckets has at least one. -/
theorem capa_pos (hh : Hashmap.Inv h) {buckets : Nat → Bucket V} (hb : h.buckets = some buckets) :
    0 < h.capa :=
  lt_of_lt_of_le (by decide) (hh.capa buckets hb)

section
variable (hh : Hashmap.Inv h) (hkey : key ≠ MAX_KEY)
include hh hkey

/-- `hashmap_findbucket` looks up the incremented key. -/
theorem findbucket : hashmapFindbucket h key = h.walk.dlookup (key + 1) := by
  unfold hashmapFindbucket
  cases hb : h.buckets with
  | none =>
    rw [Hashmap.walk_of_none hb]
    rfl
  | some buckets =>
    have hwf := hh.buckets buckets hb
    have hlt := hash_lt (hh.capa_pos hb) (key + 1)
    have hnd : (walkBuckets buckets h.capa).NodupKeys := Hashmap.walk_of_some hb ▸ hh.nodup
    rw [Hashmap.walk_of_some hb]
    exact (Bucket.find_eq (hwf _ hlt) (add_one_ne_zero hkey)).trans
      (joined_lookup (hwf.only _) hlt hnd).symm

/-- A value is replaced. -/
theorem replace (hmem : key + 1 ∈ h.walk.keys) (val : V) :
    Hashmap.Inv (h.replace key val) ∧
      (h.replace key val).walk.Perm (h.walk.kinsert (key + 1) val) := by
  unfold Hashmap.replace
  cases hb : h.buckets with
  | none =>
    rw [Hashmap.walk_of_none hb] at hmem
    cases hmem
  | some buckets =>
    have hwf := hh.buckets buckets hb
    have hlt := hash_lt (hh.capa_pos hb) (key + 1)
    have hnd := hh.nodup
    have hne := add_one_ne_zero hkey
    have hbucket : key + 1 ∈ (buckets (hash h.capa (key + 1))).walk.keys := by
      rw [← dlookup_isSome, ← hh.findbucket hkey] at hmem
      simp only [hashmapFindbucket, hb] at hmem
      rwa [Bucket.find_eq (hwf _ hlt) hne, dlookup_isSome] at hmem
    have hperm : (walkBuckets (update buckets (hash h.capa (key + 1))
        ((buckets (hash h.capa (key + 1))).set (key + 1) val)) h.capa).Perm
        (h.walk.kinsert (key + 1) val) := by
      rw [Hashmap.walk_of_some hb] at hnd ⊢
      rw [walkBuckets_update]
      refine joined_insert (hwf.only _) hlt hnd ?_
      rw [Bucket.set_walk hne]
      exact kreplace_perm_kinsert hbucket val
    refine ⟨.of_buckets (hh.capa buckets hb) hh.capa_lt (hwf.update ((hwf _ hlt).set hne)) hperm
      (kinsert_nodupKeys _ _ hnd) ?_ hh.room, hperm⟩
    -- The key was there, so the number of elements stays.
    rw [hh.size, kinsert_def, length_cons, length_kerase_of_mem hmem]

/-- An element is deleted. -/
theorem delete :
    (hashmapDelete h key).1 = (h.walk.dlookup (key + 1)).isSome ∧
      (hashmapDelete h key).2.1 = h.walk.dlookup (key + 1) ∧
      Hashmap.Inv (hashmapDelete h key).2.2 ∧
      (hashmapDelete h key).2.2.walk.Perm (h.walk.kerase (key + 1)) := by
  unfold hashmapDelete
  cases hb : h.buckets with
  | none =>
    have hwalk := Hashmap.walk_of_none hb
    have herase : h.walk.kerase (key + 1) = h.walk := by rw [hwalk, kerase_nil]
    rw [herase, hwalk]
    exact ⟨rfl, rfl, hh, .refl _⟩
  | some buckets =>
    have hwf := hh.buckets buckets hb
    have hlt := hash_lt (hh.capa_pos hb) (key + 1)
    have hnd := hh.nodup
    have hne := add_one_ne_zero hkey
    have hfst : ((buckets (hash h.capa (key + 1))).delete (key + 1)).1 =
        h.walk.dlookup (key + 1) := by
      rw [Hashmap.walk_of_some hb] at hnd ⊢
      rw [Bucket.delete_fst (hwf _ hlt) hne]
      exact (joined_lookup (hwf.only _) hlt hnd).symm
    have hperm : (walkBuckets (update buckets (hash h.capa (key + 1))
        ((buckets (hash h.capa (key + 1))).delete (key + 1)).2) h.capa).Perm
        (h.walk.kerase (key + 1)) := by
      rw [Hashmap.walk_of_some hb] at hnd ⊢
      rw [walkBuckets_update]
      exact joined_erase (hwf.only _) hlt hnd (.of_eq (Bucket.delete_walk (hwf _ hlt) hne))
    -- `size` is decremented exactly if the key was found, and does not wrap then.
    have hsize : (if (h.walk.dlookup (key + 1)).isSome then (h.size + 2 ^ 32 - 1) % 2 ^ 32
        else h.size) = (h.walk.kerase (key + 1)).length := by
      have hbound := lt_of_le_of_lt (hh.room.trans (Nat.sub_le _ _)) hh.capa_lt
      by_cases hmem : key + 1 ∈ h.walk.keys
      · have hlen := length_kerase_of_mem hmem
        rw [if_pos (dlookup_isSome.mpr hmem)]
        rw [hh.size] at hbound ⊢
        omega
      · rw [if_neg (mt dlookup_isSome.mp hmem), kerase_of_notMem_keys hmem, hh.size]
    have hle : (h.walk.kerase (key + 1)).length ≤ h.size :=
      hh.size ▸ (kerase_sublist _ _).length_le
    dsimp only
    rw [hfst]
    exact ⟨rfl, rfl, .of_buckets (hh.capa buckets hb) hh.capa_lt
      (hwf.update ((hwf _ hlt).delete hne)) hperm (hnd.kerase _) hsize
      (hsize ▸ hle.trans hh.room), hperm⟩

end

/-- If the new capacity has not wrapped around, it leaves room for one more element. -/
theorem newcapa_spec (hh : Hashmap.Inv h) {newcapa : Nat}
    (hnew : (if h.capa ≠ 0 then (h.capa <<< 1) % 2 ^ 32 else HASH_DEFAULT_CAPA) = newcapa)
    (hover : ¬ newcapa < h.capa) :
    HASH_DEFAULT_CAPA ≤ newcapa ∧ newcapa < 2 ^ 32 ∧
      h.capa - h.capa / 4 + 1 ≤ newcapa - newcapa / 4 := by
  cases hb : h.buckets with
  | none =>
    rw [hh.empty hb] at hnew ⊢
    subst hnew
    decide
  | some buckets =>
    have hcapa := hh.capa buckets hb
    unfold HASH_DEFAULT_CAPA at hcapa ⊢
    rw [if_pos (by omega), Nat.shiftLeft_eq] at hnew
    omega

/-- The array that `grow` makes has room for one more element. -/
theorem grow [Inhabited V] (hh : Hashmap.Inv h) {h' : Hashmap V} {mem mem' : List Bool}
    (hgrow : Api.grow h mem = (some h', mem')) :
    Hashmap.Inv h' ∧ h'.walk.Perm h.walk ∧ h'.size + 1 ≤ h'.capa - h'.capa / 4 := by
  unfold Api.grow at hgrow
  generalize hnew : (if h.capa ≠ 0 then (h.capa <<< 1) % 2 ^ 32 else HASH_DEFAULT_CAPA) = newcapa
    at hgrow
  -- A capacity that wrapped is refused.
  by_cases hover : newcapa < h.capa
  · rw [if_pos hover] at hgrow
    cases hgrow
  · rw [if_neg hover] at hgrow
    have hcapa := newcapa_spec hh hnew hover
    have hroom := hh.room
    have hnone : WellFormed (fun _ => { key := 0, value := default, next := [] } : Nat → Bucket V)
        newcapa := fun i _ => ⟨fun _ => rfl, fun e he => by
          rw [Bucket.walk_eq_nil rfl] at he
          cases he⟩
    have hempty : walkBuckets (fun _ => { key := 0, value := default, next := [] } : Nat → Bucket V)
        newcapa = [] := flatMap_eq_nil_iff.mpr fun i _ => Bucket.walk_eq_nil rfl
    cases hmem : malloc mem with
    | mk ok rest =>
      rw [hmem] at hgrow
      cases ok with
      | false => cases hgrow
      | true =>
        dsimp only at hgrow
        cases hall : addAll newcapa h.walk (fun _ => { key := 0, value := default, next := [] })
            rest with
        | mk newarr rest' =>
          rw [hall] at hgrow
          cases newarr with
          | none => cases hgrow
          | some newarr =>
            cases hgrow
            -- All entries are moved to the new array, which was empty.
            obtain ⟨hwf, hperm⟩ := addAll_some (by omega) hh.key_ne_zero hnone hall
            rw [hempty, append_nil] at hperm
            have hmore : h.size + 1 ≤ newcapa - newcapa / 4 := by omega
            exact ⟨.of_buckets hcapa.1 hcapa.2.1 hwf hperm hh.nodup hh.size (by omega), hperm,
              hmore⟩

end Hashmap.Inv

/-- What `hashmap_add` does: if it fails, the elements stay. -/
structure Added (h : Hashmap V) (key : UInt64) (val : V) (r : AddResult V) : Prop where
  inv : Hashmap.Inv r.map
  failed : r.failed = true → r.map.walk.Perm h.walk
  oldval : r.failed = false → r.oldval = h.walk.dlookup (key + 1)
  walk : r.failed = false → r.map.walk.Perm (h.walk.kinsert (key + 1) val)

/-- A failed addition leaves the map as it is. -/
theorem Added.of_failed {h : Hashmap V} (hh : Hashmap.Inv h) {key : UInt64} {val : V} :
    Added h key val ⟨true, h, none⟩ :=
  ⟨hh, fun _ => .refl _, nofun, nofun⟩

/-- The order of the elements before the call does not matter. -/
theorem Added.of_perm {h h' : Hashmap V} (hh' : Hashmap.Inv h') (hperm : h'.walk.Perm h.walk)
    {key : UInt64} {val : V} {r : AddResult V} (hr : Added h' key val r) : Added h key val r where
  inv := hr.inv
  failed hf := (hr.failed hf).trans hperm
  oldval hf := (hr.oldval hf).trans (perm_dlookup _ hh'.nodup hperm)
  walk hf := (hr.walk hf).trans (List.Perm.kinsert hh'.nodup hperm)

namespace Hashmap.Inv

variable {h : Hashmap V} {key : UInt64} {val : V}

/-- The end of `hashmap_add`, for a key that is not there. -/
theorem addToBuckets (hh : Hashmap.Inv h) (hkey : key ≠ MAX_KEY) (hmem : key + 1 ∉ h.walk.keys)
    (hroom : h.size + 1 ≤ h.capa - h.capa / 4) (mem : List Bool) :
    Added h key val (Api.addToBuckets h key val mem) := by
  unfold Api.addToBuckets
  cases hb : h.buckets with
  | none => exact .of_failed hh
  | some buckets =>
    dsimp only
    cases hadd : doAdd buckets h.capa (key + 1) val mem with
    | mk buckets' rest =>
      cases buckets' with
      | none => exact .of_failed hh
      | some buckets' =>
        obtain ⟨hwf, hperm⟩ := doAdd_some (hh.capa_pos hb) (hh.buckets buckets hb)
          (add_one_ne_zero hkey) hadd
        have hins : h.walk.kinsert (key + 1) val = ⟨key + 1, val⟩ :: h.walk := by
          rw [kinsert_def, kerase_of_notMem_keys hmem]
        rw [← Hashmap.walk_of_some hb, ← hins] at hperm
        have hbound := hh.capa_lt
        have hsize : (h.size + 1) % 2 ^ 32 = h.size + 1 := Nat.mod_eq_of_lt (by omega)
        rw [hsize]
        refine ⟨.of_buckets (hh.capa buckets hb) hh.capa_lt hwf hperm
          (kinsert_nodupKeys _ _ hh.nodup) ?_ hroom, nofun,
          fun _ => (dlookup_eq_none.mpr hmem).symm, fun _ => hperm⟩
        rw [hins, length_cons, hh.size]

/-- An element is added, or its value is replaced. -/
theorem add [Inhabited V] (hh : Hashmap.Inv h) (hkey : key ≠ MAX_KEY) (mem : List Bool) :
    Added h key val (hashmapAdd h key val mem) := by
  unfold hashmapAdd
  rw [hh.findbucket hkey]
  cases hlook : h.walk.dlookup (key + 1) with
  | some old =>
    have hmem : key + 1 ∈ h.walk.keys := dlookup_isSome.mp (hlook ▸ rfl)
    obtain ⟨hinv, hperm⟩ := hh.replace hkey hmem val
    exact ⟨hinv, nofun, fun _ => hlook.symm, fun _ => hperm⟩
  | none =>
    have hmem : key + 1 ∉ h.walk.keys := dlookup_eq_none.mp hlook
    have hroom := hh.room
    have hlt := hh.capa_lt
    by_cases hfull : h.capa - h.capa / 4 < (h.size + 1) % 2 ^ 32
    · rw [if_pos hfull]
      cases hgrow : Api.grow h mem with
      | mk h' rest =>
        cases h' with
        | none => exact .of_failed hh
        | some h' =>
          obtain ⟨hinv, hwalk, hroom'⟩ := hh.grow hgrow
          have hmem' : key + 1 ∉ h'.walk.keys := fun hm => hmem ((hwalk.map _).mem_iff.mp hm)
          exact (hinv.addToBuckets hkey hmem' hroom' rest).of_perm hinv hwalk
    · rw [if_neg hfull]
      exact hh.addToBuckets hkey hmem (by omega) mem

end Hashmap.Inv

/-! ### The finite map -/

/-- The hash map stands for the finite map. -/
structure Represents (h : Hashmap V) (m : FiniteMap V) : Prop extends Hashmap.Inv h where
  walk : h.walk.Perm (reindex (· + 1) m.entries)

/-- Different keys are stored under different numbers. -/
theorem add_one_injective : Function.Injective fun key : UInt64 => key + 1 :=
  fun _ _ h => (UInt64.add_left_inj 1).mp h

/-- A new hash map is the empty map. -/
theorem represents_new : Represents (hashmapNew : Hashmap V) ∅ where
  empty _ := rfl
  capa _ h := by cases h
  capa_lt := Nat.two_pow_pos 32
  buckets _ h := by cases h
  nodup := nodupKeys_nil
  size := rfl
  room := Nat.zero_le _
  walk := .refl _

namespace Represents

variable {h : Hashmap V} {m : FiniteMap V} {key : UInt64}

section
variable (hr : Represents h m)
include hr

/-- The hash map and the finite map find the same. -/
theorem lookup (key : UInt64) : h.walk.dlookup (key + 1) = m.lookup key :=
  (perm_dlookup _ hr.nodup hr.walk).trans (reindex_dlookup add_one_injective m.entries key)

/-- An insertion into both keeps the relation. -/
theorem insert {h' : Hashmap V} (hinv : Hashmap.Inv h') {key : UInt64} {val : V}
    (hwalk : h'.walk.Perm (h.walk.kinsert (key + 1) val)) : Represents h' (m.insert key val) where
  toInv := hinv
  walk := by
    refine hwalk.trans ((List.Perm.kinsert hr.nodup hr.walk).trans (.of_eq ?_))
    exact (reindex_kinsert add_one_injective m.entries key val).symm

/-- A deletion from both keeps the relation. -/
theorem erase {h' : Hashmap V} (hinv : Hashmap.Inv h') {key : UInt64}
    (hwalk : h'.walk.Perm (h.walk.kerase (key + 1))) : Represents h' (m.erase key) where
  toInv := hinv
  walk := by
    refine hwalk.trans ((List.Perm.kerase hr.nodup hr.walk).trans (.of_eq ?_))
    exact (reindex_kerase add_one_injective m.entries key).symm

/-- The size is the number of keys. -/
theorem size_eq : h.size = m.keys.length := by
  rw [hr.size, hr.walk.length_eq, length_reindex]
  exact (length_map _).symm

end

section
variable [Inhabited V] (hr : Represents h m) {op : Op V} (hkey : op.key ≠ MAX_KEY)
include hr hkey

/-- Every call with another key than the largest one is answered right. -/
theorem right : op.Right (h, m) := by
  cases op with
  | add key val mem =>
    exact fun hf => ((hr.add hkey mem).oldval hf).trans (hr.lookup key)
  | delete key =>
    have hne : key ≠ MAX_KEY := hkey
    obtain ⟨hfound, hval, -, -⟩ := hr.delete hne
    rw [hr.lookup key] at hfound hval
    exact ⟨hfound, hval⟩
  | find key =>
    have hne : key ≠ MAX_KEY := hkey
    have hfind := (hr.findbucket hne).trans (hr.lookup key)
    show (_, _) = _
    rw [hfind]

/-- Every call with another key than the largest one keeps the relation. -/
theorem step : Represents (op.step (h, m)).1 (op.step (h, m)).2 := by
  cases op with
  | add key val mem =>
    have hadd : Added h key val (hashmapAdd h key val mem) := hr.add hkey mem
    unfold Op.step
    dsimp only
    cases hf : (hashmapAdd h key val mem).failed with
    | true =>
      rw [if_pos rfl]
      exact ⟨hadd.inv, (hadd.failed hf).trans hr.walk⟩
    | false =>
      rw [if_neg (by decide)]
      exact hr.insert hadd.inv (hadd.walk hf)
  | delete key =>
    obtain ⟨-, -, hinv, hwalk⟩ := hr.delete hkey
    exact hr.erase hinv hwalk
  | find key => exact hr

end

end Represents

section
variable [Inhabited V] {ops : List (Op V)} (hops : ∀ op ∈ ops, op.key ≠ MAX_KEY)
include hops

/-- The relation after a sequence of calls. -/
theorem represents_foldl :
    ∀ {s : Hashmap V × FiniteMap V}, Represents s.1 s.2 →
      Represents (ops.foldl Op.step s).1 (ops.foldl Op.step s).2 := by
  induction ops with
  | nil => exact fun hs => hs
  | cons op ops ih =>
    intro s hs
    exact ih (fun op' h' => hops op' (mem_cons_of_mem op h'))
      (hs.step (hops op mem_cons_self))

/-- The relation after any calls on a new hash map. -/
theorem represents_runOps : Represents (runOps ops).1 (runOps ops).2 :=
  represents_foldl hops represents_new

end

/-! ### The largest key -/

/-- The largest key is found again after it has been deleted: the empty first bucket looks like
it. -/
theorem find_max_of_deleted [Inhabited V] (val : V) :
    hashmapFind (some (runOps [Op.add MAX_KEY val [], .delete MAX_KEY]).1) MAX_KEY =
      (true, some val) := by
  have hmax : MAX_KEY + 1 = 0 := by decide
  simp [runOps, Op.step, hashmapAdd, hashmapNew, hashmapFindbucket, grow, malloc, addAll,
    Hashmap.walk, addToBuckets, doAdd, hashmapDelete, Bucket.delete, hashmapFind, Bucket.find, hmax,
    HASH_DEFAULT_CAPA]

/-- The finite map forgets a deleted key, the largest one too. -/
theorem lookup_max_of_deleted [Inhabited V] (val : V) :
    (runOps [Op.add MAX_KEY val [], .delete MAX_KEY]).2.lookup MAX_KEY = none :=
  AList.lookup_erase _ _

/-! ### `hashmap_free` -/

/-- The chain of a bucket does not have the first element. -/
theorem BucketOk.next_length {capa i : Nat} {b : Bucket V} (hb : BucketOk capa i b) :
    b.next.length = b.walk.length - 1 := by
  by_cases h0 : b.key = 0
  · rw [Bucket.walk_eq_nil h0, hb.root h0]
    rfl
  · rw [Bucket.walk_eq_cons h0]
    rfl

/-- The free function is not called for the first element of a bucket. -/
theorem freebuckets_length_lt {capa : Nat} (hwf : WellFormed buckets capa)
    (hne : walkBuckets buckets capa ≠ []) :
    (freebuckets buckets capa).length < (walkBuckets buckets capa).length := by
  have hfree : (freebuckets buckets capa).length
      = ((List.range capa).map fun i => (buckets i).next.length).sum := by
    simp [freebuckets, length_flatMap]
  have hwalk : (walkBuckets buckets capa).length
      = ((List.range capa).map fun i => (buckets i).walk.length).sum := by
    simp [walkBuckets, length_flatMap]
  rw [hfree, hwalk]
  obtain ⟨e, he⟩ := exists_mem_of_ne_nil _ hne
  obtain ⟨i, hi, hmem⟩ := mem_joined.mp he
  have hpos : 0 < (buckets i).walk.length := length_pos_of_mem hmem
  refine sum_lt_sum _ _ (fun j hj => ?_) ⟨i, mem_range.mpr hi, ?_⟩
  · have hlen := (hwf j (mem_range.mp hj)).next_length
    omega
  · have hlen := (hwf i hi).next_length
    omega

/-- `hashmap_free` frees the stored values only if there are none. -/
theorem Represents.free_iff {h : Hashmap V} {m : FiniteMap V} (hr : Represents h m) :
    (hashmapFree h).Perm (m.entries.map Sigma.snd) ↔ m = ∅ := by
  have hlen : h.walk.length = (m.entries.map Sigma.snd).length := by
    rw [hr.walk.length_eq, length_reindex, length_map]
  constructor
  · intro hperm
    by_contra hne
    have hwalk : h.walk ≠ [] := by
      intro hnil
      rw [hnil, length_nil, length_map] at hlen
      exact hne (AList.ext (eq_nil_of_length_eq_zero hlen.symm))
    have hfree := hperm.length_eq
    cases hb : h.buckets with
    | none => exact hwalk (Hashmap.walk_of_none hb)
    | some buckets =>
      rw [Hashmap.walk_of_some hb] at hwalk hlen
      simp only [hashmapFree, hb] at hfree
      have hlt := freebuckets_length_lt (hr.buckets buckets hb) hwalk
      omega
  · rintro rfl
    have hnil : h.walk = [] := eq_nil_of_length_eq_zero hlen
    cases hb : h.buckets with
    | none =>
      simp only [hashmapFree, hb]
      exact .refl _
    | some buckets =>
      rw [Hashmap.walk_of_some hb] at hnil
      have hfree : freebuckets buckets h.capa = [] := by
        refine flatMap_eq_nil_iff.mpr fun i hi => ?_
        have hwalk : (buckets i).walk = [] := flatMap_eq_nil_iff.mp hnil i hi
        have hnext := (hr.buckets buckets hb i (mem_range.mp hi)).next_length
        rw [hwalk] at hnext
        rw [eq_nil_of_length_eq_zero hnext, map_nil]
      simp only [hashmapFree, hb, hfree]
      exact .refl _

/-! ### The list of mechanisms of a policy -/

/-- The loop adds the mechanisms of the list to those that are already there. -/
theorem parseMechs_ok [Inhabited V] {translate : String → Option UInt64}
    {list : List (String × List Bool)}
    (hlist : ∀ p ∈ list, translate p.1 ≠ some MAX_KEY) :
    ∀ {h h' : Hashmap V} {m : FiniteMap V}, Represents h m →
      parseMechs translate list h = (.ok, h') →
      ∃ m', Represents h' m' ∧
        ∀ mech, mech ∈ m' ↔ mech ∈ m ∨ ∃ p ∈ list, translate p.1 = some mech := by
  induction list with
  | nil =>
    intro h h' m hr hparse
    cases hparse
    exact ⟨m, hr, fun mech => by simp⟩
  | cons p list ih =>
    intro h h' m hr hparse
    unfold parseMechs at hparse
    cases htrans : translate p.1 with
    | none =>
      rw [htrans] at hparse
      cases hparse
    | some mech =>
      rw [htrans] at hparse
      dsimp only at hparse
      have hkey : mech ≠ MAX_KEY := fun hmax => hlist p mem_cons_self (hmax ▸ htrans)
      have hadd : Added h mech default (hashmapAdd h mech default p.2) := hr.add hkey p.2
      cases hf : (hashmapAdd h mech (default : V) p.2).failed with
      | true =>
        rw [hf, if_pos rfl] at hparse
        cases hparse
      | false =>
        rw [hf, if_neg (by decide)] at hparse
        obtain ⟨m', hr', hmem⟩ := ih (fun q hq => hlist q (mem_cons_of_mem p hq))
          (hr.insert hadd.inv (hadd.walk hf)) hparse
        refine ⟨m', hr', fun mech' => (hmem mech').trans ?_⟩
        rw [AList.mem_insert, exists_mem_cons_iff, htrans, Option.some.injEq,
          eq_comm (a := mech'), or_assoc, or_left_comm]

/-! ### The refinement -/

/-- The hash map is the finite map for the keys of `K` exactly if the largest key is not among
them. Then `hashmap_free` passes the stored values to the free function only if there are none, and
the mechanisms of a policy are those of its list. -/
theorem hashmap_refines_iff (V : Type) [Inhabited V] (K : Set UInt64) :
    (AllRight V K ↔ MAX_KEY ∉ K) ∧
    (MAX_KEY ∉ K → (∀ ops : List (Op V), (∀ op ∈ ops, op.key ∈ K) →
        ((hashmapFree (runOps ops).1).Perm ((runOps ops).2.entries.map Sigma.snd) ↔
          (runOps ops).2 = ∅)) ∧
      ∀ (translate : String → Option UInt64) (list : List (String × List Bool)) (h : Hashmap V),
        (∀ p ∈ list, ∀ mech, translate p.1 = some mech → mech ∈ K) →
        policyParseMechlist translate list = (.ok, h) →
        ∀ mech ∈ K, ((hashmapFind (some h) mech).1 = true ↔
          ∃ p ∈ list, translate p.1 = some mech)) := by
  have hne : MAX_KEY ∉ K → ∀ {ops : List (Op V)}, (∀ op ∈ ops, op.key ∈ K) →
      ∀ op ∈ ops, op.key ≠ MAX_KEY := fun hK _ hops op hop hmax => hK (hmax ▸ hops op hop)
  refine ⟨⟨fun hall hK => ?_, fun hK ops hops => ?_⟩, fun hK => ⟨fun ops hops => ?_, ?_⟩⟩
  · -- The key is added, deleted and then found.
    have hright := (hall [.add MAX_KEY default [], .delete MAX_KEY]
      (by simp [Op.key, hK])).2 (.find MAX_KEY) hK
    have hfound := (find_max_of_deleted (default : V)).symm.trans hright
    rw [lookup_max_of_deleted] at hfound
    cases hfound
  · have hr := represents_runOps (hne hK hops)
    exact ⟨hr.size_eq, fun op hop => hr.right fun hmax => hK (hmax ▸ hop)⟩
  · exact (represents_runOps (hne hK hops)).free_iff
  · intro translate list h hlist hparse mech hmech
    obtain ⟨m, hr, hmem⟩ := parseMechs_ok
      (fun p hp hmax => hK (hlist p hp MAX_KEY hmax)) represents_new hparse
    have hright : (Op.find mech).Right (h, m) := hr.right fun hmax => hK (hmax ▸ hmech)
    have hfind : (hashmapFind (some h) mech).1 = (m.lookup mech).isSome := congrArg Prod.fst hright
    rw [hfind, AList.lookup_isSome, hmem mech]
    exact or_iff_right (AList.notMem_empty mech)

/-- The largest key is found after it has been added and deleted, and the value of a map with one
key is not passed to the free function. -/
theorem hashmap_max_key_found :
    hashmapFind (some (runOps [Op.add MAX_KEY 7 [], .delete MAX_KEY]).1) MAX_KEY = (true, some 7) ∧
    MAX_KEY ∉ (runOps [Op.add MAX_KEY 7 [], .delete MAX_KEY]).2 ∧
    hashmapFree (runOps [Op.add 1 7 []]).1 = [] ∧
    (runOps [Op.add 1 7 []]).2.entries = [⟨1, 7⟩] :=
  ⟨find_max_of_deleted 7, by decide, by decide, by decide⟩

end OpenCryptoki.Proofs.Api
