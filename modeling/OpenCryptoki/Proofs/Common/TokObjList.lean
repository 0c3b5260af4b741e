import OpenCryptoki.Common.TokObjList
import OpenCryptoki.Lib.Run

/-!
# `OpenCryptoki.Proofs.Common.TokObjList`: the shared token object lists over whole runs

`ExactCall` says for one call that it finds or deletes exactly the entry with the name of the
object, and that it stays inside the array. Along every run from empty lists, in which no name is
added that is in the list already, all calls are exact if and only if all calls meet `Careful`
(`shm_runs_exact_iff`):

* no call trusts a cached index that is not below the count any more although the entry there still
  has the name. Deleting an entry moves the others up but does not clear the one behind the last,
  so the last entry stays there a second time.
* in a full list only the last entry is deleted. Otherwise the entry behind the array is cleared.

`stale_index_found` is a run of two processes with a call of the first kind.
-/

set_option autoImplicit false

namespace OpenCryptoki.Proofs.Common

open OpenCryptoki.Common Lib Function

/-! ### Looking up an entry -/

/-- The entries in use. -/
def TokObjList.live (l : TokObjList) : List TokObjEntry := (List.range l.num).map l.objs

/-- A cached index that is not in use, at an entry that has the name. -/
def StaleIndex (l : TokObjList) (name : ObjName) (index : Nat) : Prop :=
  l.num ≠ 0 ∧ index ≠ 0 ∧ l.num ≤ index ∧ (l.objs index).name = name

/-- An index inside the array. -/
theorem checkIndex_of_lt {index : Nat} (h : index < MAX_TOK_OBJS) : checkIndex index = .ok () := by
  simp [checkIndex, h]

/-- An index behind the array. -/
theorem checkIndex_of_le {index : Nat} (h : MAX_TOK_OBJS ≤ index) :
    checkIndex index = .error .fault := by
  simp [checkIndex, h.not_gt, access]

/-- The loop finds an entry with the name, or there is none. -/
theorem searchLoop_spec (l : TokObjList) (name : ObjName) :
    ∀ k idx, idx + k ≤ MAX_TOK_OBJS →
      (∃ i, searchLoop l name idx k = .ok i ∧ i < idx + k ∧ (l.objs i).name = name) ∨
        (searchLoop l name idx k = .error (.rc .objectHandleInvalid) ∧
          ∀ i, idx ≤ i → i < idx + k → (l.objs i).name ≠ name) := by
  intro k
  induction k with
  | zero =>
    intro idx _
    exact .inr ⟨rfl, fun i _ _ => by omega⟩
  | succ k ih =>
    intro idx hk
    have hloop : searchLoop l name idx (k + 1) =
        if (l.objs idx).name = name then .ok idx else searchLoop l name (idx + 1) k := by
      rw [searchLoop, checkIndex_of_lt (by omega), ok_bind]
    rw [hloop]
    split
    · rename_i hname
      exact .inl ⟨idx, rfl, by omega, hname⟩
    · rename_i hname
      rcases ih (idx + 1) (by omega) with ⟨i, hi, hlt, hi'⟩ | ⟨herr, hnone⟩
      · exact .inl ⟨i, hi, by omega, hi'⟩
      · refine .inr ⟨herr, fun i h₁ h₂ => ?_⟩
        rcases Nat.eq_or_lt_of_le h₁ with rfl | h₁
        · exact hname
        · exact hnone i h₁ (by omega)

section
variable {l : TokObjList} {index : Nat}

/-- A lookup in a list with entries finds an entry in use, or trusts a stale index, or there is no
entry with the name. -/
theorem search_spec (name : ObjName) (hnum : l.num ≤ MAX_TOK_OBJS) (hindex : index < MAX_TOK_OBJS)
    (hne : l.num ≠ 0) :
    (∃ i, objectMgrSearchShmForObj l (l.num - 1) name index = .ok i ∧ (l.objs i).name = name ∧
        (i < l.num ∧ ¬ StaleIndex l name index ∨ i = index ∧ StaleIndex l name index)) ∨
      (objectMgrSearchShmForObj l (l.num - 1) name index = .error (.rc .objectHandleInvalid) ∧
        (∀ i < l.num, (l.objs i).name ≠ name) ∧ ¬ StaleIndex l name index) := by
  have hloop := searchLoop_spec l name (l.num - 1 + 1) 0 (by omega)
  unfold objectMgrSearchShmForObj
  by_cases hcached : index ≠ 0 ∧ (l.objs index).name = name
  · obtain ⟨h0, hname⟩ := hcached
    rw [if_neg h0, checkIndex_of_lt hindex, ok_bind, if_pos hname]
    refine .inl ⟨index, rfl, hname, ?_⟩
    by_cases hlive : index < l.num
    · exact .inl ⟨hlive, fun h => by have := h.2.2.1; omega⟩
    · exact .inr ⟨rfl, hne, h0, not_lt.mp hlive, hname⟩
  · -- the cached index is not used, so the loop decides
    have hstale : ¬ StaleIndex l name index := fun h => hcached ⟨h.2.1, h.2.2.2⟩
    have hsearch : (if index = 0 then searchLoop l name 0 (l.num - 1 + 1)
        else do
          checkIndex index
          if (l.objs index).name = name then .ok index
          else searchLoop l name 0 (l.num - 1 + 1)) =
        searchLoop l name 0 (l.num - 1 + 1) := by
      split
      · rfl
      · rename_i h0
        rw [checkIndex_of_lt hindex, ok_bind, if_neg fun h => hcached ⟨h0, h⟩]
    rw [hsearch]
    rcases hloop with ⟨i, hi, hlt, hname⟩ | ⟨herr, hnone⟩
    · exact .inl ⟨i, hi, hname, .inl ⟨by omega, hstale⟩⟩
    · exact .inr ⟨herr, fun i hi => hnone i (Nat.zero_le i) (by omega), hstale⟩

/-! ### Deleting an entry -/

/-- The live entries after the entries behind `index` were moved up. -/
theorem live_moved (hi : index < l.num) {objs : Nat → TokObjEntry}
    (hobjs : ∀ i < l.num - 1, objs i = if i < index then l.objs i else l.objs (i + 1)) :
    TokObjList.live ⟨l.num - 1, objs⟩ = (TokObjList.live l).eraseIdx index := by
  have hlen : (TokObjList.live l).length = l.num := by simp [TokObjList.live]
  apply List.ext_getElem
  · rw [List.length_eraseIdx_of_lt (by omega), hlen]
    simp [TokObjList.live]
  · intro i h₁ h₂
    have hlt : i < l.num - 1 := by simpa [TokObjList.live] using h₁
    rw [List.getElem_eraseIdx]
    simp only [TokObjList.live, List.getElem_map, List.getElem_range]
    rw [hobjs i hlt]
    split <;> rfl

/-- Deleting an entry in use removes it and keeps the others in order, unless the list is full and
the entry is not the last one. Then the entry behind the array is written. -/
theorem delete_spec (hnum : l.num ≤ MAX_TOK_OBJS) (hi : index < l.num) :
    (¬ (l.num = MAX_TOK_OBJS ∧ index < l.num - 1) ∧ ∃ l', l.delete index = .ok l' ∧
        l'.num = l.num - 1 ∧ TokObjList.live l' = (TokObjList.live l).eraseIdx index) ∨
      ((l.num = MAX_TOK_OBJS ∧ index < l.num - 1) ∧ l.delete index = .error .fault) := by
  have hle : ¬ index > l.num - 1 := by omega
  unfold TokObjList.delete
  dsimp only
  rw [if_neg hle]
  split
  · unfold TokObjList.memmove TokObjList.memset
    rw [checkIndex_of_lt (by omega), ok_bind]
    by_cases hfull : l.num = MAX_TOK_OBJS
    · refine .inr ⟨⟨hfull, by omega⟩, ?_⟩
      rw [pure_bind, checkIndex_of_le (by omega)]
      rfl
    · refine .inl ⟨fun h => hfull h.1, ?_⟩
      rw [pure_bind, checkIndex_of_lt (by omega)]
      refine ⟨_, rfl, rfl, live_moved hi fun i hlt => ?_⟩
      rw [update_of_ne (by omega)]
      dsimp only
      by_cases hii : i < index
      · rw [if_neg (by omega), if_pos hii]
      · rw [if_pos (by omega), if_neg hii]
  · rename_i hzero
    -- the last entry is deleted: nothing is moved
    refine .inl ⟨by omega, ?_⟩
    unfold TokObjList.memset
    rw [checkIndex_of_lt (by omega), ok_bind]
    refine ⟨_, rfl, rfl, live_moved hi fun i hlt => ?_⟩
    rw [update_of_ne (by omega), if_pos (by omega)]

end

variable {e : Stop}

/-- An access does not return an error. -/
theorem checkIndex_bind_error {α : Type} {index : Nat} {a : α}
    (h : (checkIndex index >>= fun _ => pure a) = .error e) : e = .fault := by
  rcases lt_or_ge index MAX_TOK_OBJS with hi | hi
  · rw [checkIndex_of_lt hi] at h
    cases h
  · rw [checkIndex_of_le hi] at h
    cases h
    rfl

/-- Deleting an entry does not return an error. -/
theorem delete_error {l : TokObjList} {index : Nat} (h : l.delete index = .error e) :
    e = .fault := by
  unfold TokObjList.delete at h
  dsimp only at h
  generalize (if index > l.num - 1 then index - (l.num - 1) else l.num - 1 - index) = count at h
  split at h
  · cases hmove : TokObjList.memmove { l with num := l.num - 1 } index count with
    | ok l' =>
      rw [hmove, ok_bind] at h
      exact checkIndex_bind_error h
    | error e' =>
      rw [hmove, error_bind] at h
      cases h
      exact checkIndex_bind_error hmove
  · exact checkIndex_bind_error h

/-! ### Exact calls -/

/-- What should hold of the result of a function: `ok` of a value, `rc` if it returns an error. It
must not access memory behind the array. -/
def Outcome {α : Type} (x : Except Stop α) (ok : α → Prop) (rc : Prop) : Prop :=
  match x with
  | .ok a          => ok a
  | .error (.rc _) => rc
  | .error .fault  => False

/-- The names of the entries in use. -/
def TokObjList.names (l : TokObjList) : List ObjName := (TokObjList.live l).map TokObjEntry.name

/-- A name that no entry has. -/
theorem not_mem_names {l : TokObjList} {name : ObjName} (h : ∀ i < l.num, (l.objs i).name ≠ name) :
    name ∉ TokObjList.names l := by
  intro hmem
  have hnames : name ∈ TokObjList.names l ↔ ∃ i < l.num, (l.objs i).name = name := by
    simp [TokObjList.names, TokObjList.live]
  obtain ⟨i, hi, hname⟩ := hnames.mp hmem
  exact h i hi hname

/-- A lookup finds the entry with the name, or there is none. -/
def ExactGet (l : TokObjList) (name : ObjName) (index : Nat) : Prop :=
  Outcome (objectMgrGetShmEntryForObj l name index)
    (fun i => i < l.num ∧ (l.objs i).name = name) (name ∉ TokObjList.names l)

/-- A deletion removes the entry with the name and keeps the others in order, or there is none. -/
def ExactDel (l : TokObjList) (name : ObjName) (index : Nat) : Prop :=
  Outcome (objectMgrDelFromShm l name index)
    (fun r => r.1 < l.num ∧ (l.objs r.1).name = name ∧
      TokObjList.live r.2 = (TokObjList.live l).eraseIdx r.1)
    (name ∉ TokObjList.names l)

/-- An addition puts the entry at the end, or the list is full. -/
def ExactAdd (l : TokObjList) (name : ObjName) : Prop :=
  Outcome (objectMgrAddToShm l name)
    (fun r => TokObjList.live r.2 = TokObjList.live l ++ [⟨0, 0, name⟩])
    (l.num = MAX_TOK_OBJS)

/-- A list inside its array, with distinct names. -/
structure TokObjList.WellFormed (l : TokObjList) : Prop where
  num_le : l.num ≤ MAX_TOK_OBJS
  nodup : (TokObjList.names l).Nodup

section List

variable {l : TokObjList} {name : ObjName} {index : Nat}

/-- The entries in use are counted. -/
theorem live_length (l : TokObjList) : (TokObjList.live l).length = l.num := by
  simp [TokObjList.live]

section
variable (hl : TokObjList.WellFormed l)
include hl

/-- A lookup is exact unless it trusts a stale index. -/
theorem exactGet_iff (hindex : index < MAX_TOK_OBJS) :
    ExactGet l name index ↔ ¬ StaleIndex l name index := by
  unfold ExactGet objectMgrGetShmEntryForObj
  by_cases hne : l.num ≠ 0
  · rw [check_bind hne]
    rcases search_spec name hl.num_le hindex hne with
      ⟨i, hi, hname, ⟨hlive, hstale⟩ | ⟨rfl, hstale⟩⟩ | ⟨herr, hnone, hstale⟩
    · rw [hi]
      exact iff_of_true ⟨hlive, hname⟩ hstale
    · rw [hi]
      refine iff_of_false (fun h => ?_) fun h => h hstale
      exact absurd h.1 hstale.2.2.1.not_gt
    · rw [herr]
      exact iff_of_true (not_mem_names hnone) hstale
  · have hzero : l.num = 0 := not_not.mp hne
    rw [check_bind_not hne]
    exact iff_of_true (not_mem_names (by simp [hzero])) fun hs => hs.1 hzero

/-- So is a deletion, unless it clears the entry behind the array. -/
theorem exactDel_iff (hindex : index < MAX_TOK_OBJS) :
    ExactDel l name index ↔ ¬ StaleIndex l name index ∧
      ¬ (l.num = MAX_TOK_OBJS ∧ ∃ i < MAX_TOK_OBJS - 1, (l.objs i).name = name) := by
  unfold ExactDel objectMgrDelFromShm
  by_cases hne : l.num ≠ 0
  · rw [check_bind hne]
    rcases search_spec name hl.num_le hindex hne with
      ⟨i, hi, hname, ⟨hlive, hstale⟩ | ⟨rfl, hstale⟩⟩ | ⟨herr, hnone, hstale⟩
    · rw [hi, ok_bind]
      rcases delete_spec hl.num_le hlive with ⟨hroom, l', hl', -, hlive'⟩ | ⟨⟨hfull, hlt⟩, hfault⟩
      · rw [hl']
        refine iff_of_true ⟨hlive, hname, hlive'⟩ ⟨hstale, ?_⟩
        -- the name is at one index only, and that is the last one
        rintro ⟨hfull, j, hj, hjname⟩
        -- In a list with distinct names a name is at one index only.
        obtain rfl : i = j := by
          have hlen : (TokObjList.names l).length = l.num := by
            simp [TokObjList.names, TokObjList.live]
          rw [← hlen] at hlive
          refine (@List.Nodup.getElem_inj_iff _ _ hl.nodup _ hlive _ (by omega)).mp ?_
          simpa [TokObjList.names, TokObjList.live] using hname.trans hjname.symm
        exact hroom ⟨hfull, by omega⟩
      · rw [hfault]
        exact iff_of_false id fun h => h.2 ⟨hfull, i, by omega, hname⟩
    · rw [hi, ok_bind]
      refine iff_of_false (fun h => ?_) fun h => h.1 hstale
      -- what is deleted is not the entry at a live index
      cases hdel : l.delete i with
      | ok l' =>
        rw [hdel] at h
        exact absurd h.1 hstale.2.2.1.not_gt
      | error e =>
        rw [hdel, delete_error hdel] at h
        exact h
    · rw [herr, error_bind]
      refine iff_of_true (not_mem_names hnone) ⟨hstale, ?_⟩
      rintro ⟨hfull, j, hj, hjname⟩
      exact hnone j (by omega) hjname
  · have hzero : l.num = 0 := not_not.mp hne
    rw [check_bind_not hne]
    refine iff_of_true (not_mem_names (by simp [hzero])) ⟨fun hs => hs.1 hzero, ?_⟩
    rintro ⟨hfull, -⟩
    exact absurd (hzero.symm.trans hfull) (by decide)

/-- An entry is appended, or the list is full. -/
theorem add_spec (name : ObjName) :
    (l.num < MAX_TOK_OBJS ∧ ∃ l', objectMgrAddToShm l name = .ok (l.num, l') ∧
        l'.num = l.num + 1 ∧ TokObjList.live l' = TokObjList.live l ++ [⟨0, 0, name⟩]) ∨
      (l.num = MAX_TOK_OBJS ∧ objectMgrAddToShm l name = .error (.rc .hostMemory)) := by
  unfold objectMgrAddToShm
  rcases lt_or_ge l.num MAX_TOK_OBJS with hlt | hge
  · rw [check_bind hlt, checkIndex_of_lt hlt, ok_bind]
    refine .inl ⟨hlt, _, rfl, rfl, ?_⟩
    simp only [TokObjList.live, List.range_succ, List.map_append, List.map_cons, List.map_nil,
      update_self]
    congr 1
    refine List.map_congr_left fun i hi => update_of_ne ?_ _ _
    exact Nat.ne_of_lt (List.mem_range.mp hi)
  · rw [check_bind_not hge.not_gt]
    exact .inr ⟨hl.num_le.antisymm hge, rfl⟩

/-- Every addition is exact. -/
theorem exactAdd : ExactAdd l name := by
  unfold ExactAdd
  rcases add_spec hl name with ⟨-, l', hl', -, hlive⟩ | ⟨hfull, herr⟩
  · rw [hl']
    exact hlive
  · rw [herr]
    exact hfull

end

end List

/-! ### Runs -/

section Runs

variable {Proc : Type} (isPrivate : ObjName → Bool)

/-- The call does what it should. -/
def ExactCall (s : ShmSystem Proc) : ShmCall Proc → Prop
  | .create _ _ => True
  | .add _ name => ExactAdd (s.list (isPrivate name)) name
  | .del p name => ExactDel (s.list (isPrivate name)) name (s.index p name)
  | .get p name => ExactGet (s.list (isPrivate name)) name (s.index p name)

/-- A name that is added is not in use. -/
def NewName (s : ShmSystem Proc) : ShmCall Proc → Prop
  | .add _ name => name ∉ TokObjList.names (s.list (isPrivate name))
  | _ => True

/-- The call does not trust a stale index, and in a full list it deletes the last entry only. -/
def Careful (s : ShmSystem Proc) : ShmCall Proc → Prop
  | .create _ _ | .add _ _ => True
  | .get p name => ¬ StaleIndex (s.list (isPrivate name)) name (s.index p name)
  | .del p name => ¬ StaleIndex (s.list (isPrivate name)) name (s.index p name) ∧
      ¬ ((s.list (isPrivate name)).num = MAX_TOK_OBJS ∧
        ∃ i < MAX_TOK_OBJS - 1, ((s.list (isPrivate name)).objs i).name = name)

/-- New names can be recognised. -/
instance (s : ShmSystem Proc) (c : ShmCall Proc) : Decidable (NewName isPrivate s c) :=
  match c with
  | .add _ name => inferInstanceAs (Decidable (name ∉ TokObjList.names (s.list (isPrivate name))))
  | .create _ _ => isTrue trivial
  | .del _ _ => isTrue trivial
  | .get _ _ => isTrue trivial

/-- Stale indices can be recognised. -/
instance (l : TokObjList) (name : ObjName) (index : Nat) : Decidable (StaleIndex l name index) :=
  inferInstanceAs (Decidable (_ ∧ _))

/-- Careful calls can be recognised. -/
instance (s : ShmSystem Proc) (c : ShmCall Proc) : Decidable (Careful isPrivate s c) :=
  match c with
  | .create _ _ => isTrue trivial
  | .add _ _ => isTrue trivial
  | .get p name =>
      inferInstanceAs (Decidable (¬ StaleIndex (s.list (isPrivate name)) name (s.index p name)))
  | .del p name =>
      inferInstanceAs (Decidable (¬ StaleIndex (s.list (isPrivate name)) name (s.index p name) ∧
        ¬ ((s.list (isPrivate name)).num = MAX_TOK_OBJS ∧
          ∃ i < MAX_TOK_OBJS - 1, ((s.list (isPrivate name)).objs i).name = name)))

/-- What every careful run keeps. -/
structure ShmInv (s : ShmSystem Proc) : Prop where
  list : ∀ priv, TokObjList.WellFormed (s.list priv)
  index : ∀ p name, s.index p name < MAX_TOK_OBJS

variable {isPrivate}

variable {s s' : ShmSystem Proc} {c : ShmCall Proc}

/-- A call is exact when it is careful. -/
theorem exactCall_iff (hs : ShmInv s) (c : ShmCall Proc) :
    ExactCall isPrivate s c ↔ Careful isPrivate s c := by
  cases c with
  | create p name => exact Iff.rfl
  | add p name => exact iff_of_true (exactAdd (hs.list _)) trivial
  | del p name => exact exactDel_iff (hs.list _) (hs.index p name)
  | get p name => exact exactGet_iff (hs.list _) (hs.index p name)

/-- A list in order may be put in place of another. -/
theorem shmInv_setList (hs : ShmInv s) (priv : Bool) {l : TokObjList}
    (h : TokObjList.WellFormed l) : ShmInv (s.setList priv l) := by
  refine ⟨fun b => ?_, hs.index⟩
  unfold ShmSystem.setList
  dsimp only
  by_cases hb : b = priv
  · subst hb
    rwa [update_self]
  · rw [update_of_ne hb]
    exact hs.list b

variable [DecidableEq Proc]

/-- A cached index may be any index of the array. -/
theorem shmInv_setIndex (hs : ShmInv s) (p : Proc) (name : ObjName) {index : Nat}
    (h : index < MAX_TOK_OBJS) : ShmInv (s.setIndex p name index) := by
  refine ⟨hs.list, fun q n => ?_⟩
  unfold ShmSystem.setIndex
  dsimp only
  by_cases hq : q = p
  · subst hq
    rw [update_self]
    by_cases hn : n = name
    · subst hn
      rwa [update_self]
    · rw [update_of_ne hn]
      exact hs.index q n
  · rw [update_of_ne hq]
    exact hs.index q n

/-- A step that succeeds is a call that succeeds, or nothing has changed. -/
theorem shmStep_cases (h : s.step isPrivate c = some s') :
    s.call isPrivate c = .ok s' ∨ s' = s := by
  unfold ShmSystem.step at h
  split at h
  · rename_i hcall
    cases h
    exact .inl hcall
  · cases h
    exact .inr rfl
  · cases h

/-- A careful call keeps the invariant. -/
theorem shmInv_step (hs : ShmInv s) (hnew : NewName isPrivate s c) (hcare : Careful isPrivate s c)
    (hstep : s.step isPrivate c = some s') : ShmInv s' := by
  rcases shmStep_cases hstep with hcall | rfl
  · have hexact := (exactCall_iff hs c).mpr hcare
    cases c with
    | create p name =>
      cases hcall
      exact shmInv_setIndex hs p name (by decide)
    | add p name =>
      have hl := hs.list (isPrivate name)
      rcases add_spec hl name with ⟨hlt, l', hl', hnum, hlive⟩ | ⟨-, herr⟩
      · simp only [ShmSystem.call, hl', ok_bind] at hcall
        cases hcall
        refine shmInv_setIndex (shmInv_setList hs _ ⟨by omega, ?_⟩) p name hlt
        -- The name is new, so the names stay apart.
        rw [TokObjList.names, hlive, List.map_append]
        exact List.Nodup.append hl.nodup (List.nodup_singleton _)
          (List.disjoint_singleton.mpr hnew)
      · simp only [ShmSystem.call, herr, error_bind] at hcall
        cases hcall
    | del p name =>
      have hl := hs.list (isPrivate name)
      obtain ⟨⟨index, l'⟩, hl', hcall⟩ := bind_eq_ok.mp hcall
      cases hcall
      -- A careful call removes the entry of that name and no other.
      simp only [ExactCall, ExactDel, hl', Outcome] at hexact
      obtain ⟨hlt, -, hlive⟩ := hexact
      have hnum : l'.num = (s.list (isPrivate name)).num - 1 := by
        rw [← live_length, hlive, List.length_eraseIdx_of_lt (by rwa [live_length]), live_length]
      have hle := hl.num_le
      refine shmInv_setIndex (shmInv_setList hs _ ⟨by omega, ?_⟩) p name (by omega)
      rw [TokObjList.names, hlive]
      exact hl.nodup.sublist ((List.eraseIdx_sublist _ _).map _)
    | get p name =>
      obtain ⟨index, hget, hcall⟩ := bind_eq_ok.mp hcall
      cases hcall
      simp only [ExactCall, ExactGet, hget, Outcome] at hexact
      exact shmInv_setIndex hs p name (hexact.1.trans_le (hs.list _).num_le)
  · exact hs

omit [DecidableEq Proc] in
/-- The invariant holds for empty lists. -/
theorem shmInv_init : ShmInv (ShmSystem.init : ShmSystem Proc) where
  list _ := ⟨zero_le, List.nodup_nil⟩
  index _ _ := Nat.zero_lt_succ _

/-- Along a run in which every added name is new, all calls are exact if and only if all calls are
careful. -/
theorem shm_runs_exact_iff (isPrivate : ObjName → Bool) (calls : List (ShmCall Proc))
    (hnew : Guarded (ShmSystem.step isPrivate) (NewName isPrivate) ShmSystem.init calls) :
    Guarded (ShmSystem.step isPrivate) (ExactCall isPrivate) ShmSystem.init calls ↔
      Guarded (ShmSystem.step isPrivate) (Careful isPrivate) ShmSystem.init calls :=
  guarded_iff (fun _ c hs _ => exactCall_iff hs c)
    (fun _ _ _ hs hn hc hstep => shmInv_step hs hn hc hstep) shmInv_init hnew

end Runs

/-- The name that repeats a byte. -/
def nameOf (b : UInt8) : ObjName := Vector.replicate 8 b

/-- Two objects are added, the last one is deleted by another process, and the first one is
found. -/
theorem shm_runs_exact_last :
    Guarded (ShmSystem.step fun _ => false) (ExactCall fun _ => false) ShmSystem.init
      [.add true (nameOf 1), .add true (nameOf 2), .del false (nameOf 2),
        .get true (nameOf 1)] := by
  refine (shm_runs_exact_iff (fun _ => false) _ ?_).mpr ?_
  · decide +kernel
  · decide +kernel

/-- Three objects are added and another process deletes the first one. The third one is at index 1
now, but its creator still finds it at index 2, where it is not in use. -/
theorem stale_index_found :
    Guarded (ShmSystem.step fun _ => false) (NewName fun _ => false) ShmSystem.init
        [.add true (nameOf 1), .add true (nameOf 2), .add true (nameOf 3), .del false (nameOf 1),
          .get true (nameOf 3)] ∧
      ¬ Guarded (ShmSystem.step fun _ => false) (ExactCall fun _ => false) ShmSystem.init
        [.add true (nameOf 1), .add true (nameOf 2), .add true (nameOf 3), .del false (nameOf 1),
          .get true (nameOf 3)] := by
  refine ⟨by decide +kernel, fun h => ?_⟩
  have hget := ((((h.2 _ rfl).2 _ rfl).2 _ rfl).2 _ rfl).1
  exact absurd hget.1 (by decide)

end OpenCryptoki.Proofs.Common
