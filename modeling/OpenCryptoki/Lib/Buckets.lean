import Mathlib.Data.List.Perm.Basic
import Mathlib.Data.List.Sigma
import Mathlib.Algebra.Order.Ring.Nat

/-!
# `OpenCryptoki.Lib.Buckets`: a list that is kept in numbered buckets

`joined f n` is the content of the buckets `f 0`, …, `f (n - 1)`, and `others f n i` is the content
of all of them but the bucket `i`. The order of the elements does not matter, so every statement is
up to a permutation. `joined_perm` takes one bucket out, and `joined_update_perm` says what an
update of one bucket does.

When the elements are pairs of a key and a value, and a key can only be in one of the buckets, an
operation on that bucket is the operation on the whole content (`joined_lookup`, `joined_erase`,
`joined_insert`). `reindex` renames the keys by an injective function, and commutes with the
operations on a list of pairs.
-/

set_option autoImplicit false

namespace OpenCryptoki.Lib

open List
open Function (update)

universe u v

section
variable {α : Type u}

/-- The content of the first `n` buckets. -/
def joined (f : Nat → List α) (n : Nat) : List α := (List.range n).flatMap f

/-- The content of the first `n` buckets without the bucket `i`. -/
def others (f : Nat → List α) (n i : Nat) : List α := ((List.range n).erase i).flatMap f

variable {a : α} {n i : Nat}

/-- An element is in one of the buckets. -/
theorem mem_joined {f : Nat → List α} : a ∈ joined f n ↔ ∃ i < n, a ∈ f i := by
  simp [joined]

/-- An element is in another bucket. -/
theorem mem_others {f : Nat → List α} : a ∈ others f n i ↔ ∃ j < n, j ≠ i ∧ a ∈ f j := by
  simp [others, nodup_range.mem_erase_iff, and_assoc, and_left_comm]

variable (f : Nat → List α)

/-- One bucket in front of all the others. -/
theorem joined_perm (hi : i < n) : (joined f n).Perm (f i ++ others f n i) :=
  (perm_cons_erase (mem_range.mpr hi)).flatMap_right f

/-- A change to one bucket leaves the others. -/
theorem others_update (n i : Nat) (x : List α) : others (update f i x) n i = others f n i := by
  refine flatMap_congr fun j hj => ?_
  have hne : j ≠ i := (nodup_range.mem_erase_iff.mp hj).1
  exact Function.update_of_ne hne x f

/-- After an update of the bucket `i`, its new content stands next to that of the others. -/
theorem joined_update_perm (hi : i < n) (x : List α) :
    (joined (update f i x) n).Perm (x ++ others f n i) := by
  have h := joined_perm (update f i x) hi
  rwa [others_update, Function.update_self] at h

end

section
variable {K : Type u} {V : Type v} {f : Nat → List (Sigma fun _ : K => V)} {n i : Nat} {k : K}

/-- The key `k` can only be in the bucket `i`. -/
def Only (f : Nat → List (Sigma fun _ : K => V)) (n i : Nat) (k : K) : Prop :=
  ∀ j < n, j ≠ i → k ∉ (f j).keys

/-- A key that is only in its bucket is in no other. -/
theorem Only.notMem_others (h : Only f n i k) : k ∉ (others f n i).keys := by
  intro hk
  obtain ⟨b, hb⟩ := mem_keys.mp hk
  obtain ⟨j, hj, hne, hmem⟩ := mem_others.mp hb
  exact h j hj hne (mem_keys_of_mem hmem)

variable [DecidableEq K]

variable {l x : List (Sigma fun _ : K => V)}

/-- Erasing a key takes one element out. -/
theorem length_kerase_of_mem (hk : k ∈ l.keys) : (l.kerase k).length + 1 = l.length := by
  have hkeys : (l.kerase k).keys.length + 1 = l.keys.length := by
    rw [keys_kerase, length_erase_of_mem hk]
    exact Nat.sub_add_cancel (length_pos_of_mem hk)
  simpa [List.keys] using hkeys

/-- To replace the value of a key that is there is to store it, up to the order. -/
theorem kreplace_perm_kinsert (hk : k ∈ l.keys) (v : V) :
    (l.kreplace k v).Perm (l.kinsert k v) := by
  induction l with
  | nil => cases hk
  | cons e l ih =>
    rw [kinsert_def]
    by_cases he : k = e.1
    · rw [kerase_cons_eq he]
      exact .of_eq (lookmap_cons_some _ l (if_pos he))
    · have hl : k ∈ l.keys := (mem_cons.mp hk).resolve_left he
      have hcons : (e :: l).kreplace k v = e :: l.kreplace k v :=
        lookmap_cons_none _ l (if_neg he)
      rw [kerase_cons_ne he, hcons]
      exact ((ih hl).cons e).trans (.swap _ _ _)

section
variable (h : Only f n i k) (hi : i < n) (hnd : (joined f n).NodupKeys)
include h hi hnd

/-- A lookup in the bucket of the key is a lookup in the whole content. -/
theorem joined_lookup : (joined f n).dlookup k = (f i).dlookup k := by
  rw [perm_dlookup k hnd (joined_perm f hi), dlookup_append,
    dlookup_eq_none.mpr h.notMem_others, Option.or_none]

/-- To erase the key in its bucket is to erase it in the whole content. -/
theorem joined_erase (hx : x.Perm ((f i).kerase k)) :
    (joined (update f i x) n).Perm ((joined f n).kerase k) := by
  have hright : ((joined f n).kerase k).Perm ((f i).kerase k ++ others f n i) := by
    refine (List.Perm.kerase hnd (joined_perm f hi)).trans (.of_eq ?_)
    by_cases hk : k ∈ (f i).keys
    · exact kerase_append_left hk
    · rw [kerase_append_right hk, kerase_of_notMem_keys h.notMem_others, kerase_of_notMem_keys hk]
  exact (joined_update_perm f hi x).trans ((hx.append_right _).trans hright.symm)

/-- To store the key in its bucket is to store it in the whole content. -/
theorem joined_insert {v : V} (hx : x.Perm ((f i).kinsert k v)) :
    (joined (update f i x) n).Perm ((joined f n).kinsert k v) := by
  have herase := joined_erase h hi hnd (List.Perm.refl ((f i).kerase k))
  rw [kinsert_def]
  refine (joined_update_perm f hi x).trans ((hx.append_right _).trans ?_)
  rw [kinsert_def, cons_append]
  exact ((joined_update_perm f hi _).symm.trans herase).cons _

end

end

section
variable {K : Type u} {V : Type v} {g : K → K}

/-- The pairs with their keys renamed by `g`. -/
def reindex (g : K → K) (l : List (Sigma fun _ : K => V)) : List (Sigma fun _ : K => V) :=
  l.map fun e => ⟨g e.1, e.2⟩

/-- Other keys do not change the number of elements. -/
@[simp] theorem length_reindex (l : List (Sigma fun _ : K => V)) :
    (reindex g l).length = l.length := length_map _

variable [DecidableEq K]

section
variable (hg : Function.Injective g) (l : List (Sigma fun _ : K => V)) (k : K)
include hg

/-- Erasing commutes with an injective change of keys. -/
theorem reindex_kerase : reindex g (l.kerase k) = (reindex g l).kerase (g k) := by
  unfold reindex List.kerase
  rw [eraseP_map]
  congr 2
  funext e
  simp [hg.eq_iff]

/-- Insertion commutes with an injective change of keys. -/
theorem reindex_kinsert (v : V) : reindex g (l.kinsert k v) = (reindex g l).kinsert (g k) v := by
  rw [kinsert_def, kinsert_def, ← reindex_kerase hg]
  rfl

/-- A lookup finds the same under the new key. -/
theorem reindex_dlookup :
    (reindex g l).dlookup (g k) = l.dlookup k := dlookup_map₁ l hg k

end

end

end OpenCryptoki.Lib
