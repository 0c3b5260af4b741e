import OpenCryptoki.Common.Reencipher

/-!
# `OpenCryptoki.Proofs.Common.Reencipher`: what re-enciphering does to a secure key

What the process sees of a key is `current`: the copy in memory, or the stored object if the next
step will reload it. A step without a failure is a function of `current` (`view_reencipher`,
`view_finalize`, `view_cancel`), so repeating a failed step is judged by what the failure left in
`current`.

* `reencipher_exact_iff`: for a key with a blob, the three steps do what they are meant to do
  exactly under `KeyUnharmed`. An AES-XTS key needs a re-encipher function that maps both halves to
  the second half, because both results are written to the start of the buffer. Finalize keeps the
  old blob when `is_blob_new_mk_cb` says so. Cancel removes attributes that were there before. And
  finalize cannot be repeated when it failed to insert the new blob, or when it failed after the
  object had been stored.
* `xts_halves_overwritten`: an AES-XTS key whose second re-enciphered half replaces the first one.
-/

set_option autoImplicit false

namespace OpenCryptoki.Proofs.Common

open OpenCryptoki.Common Lib
open SecureKey (checkShm moveOld refresh)

/-! ### Attribute maps -/

/-- The attribute that was updated. -/
@[simp] theorem update_same (m : AttrMap) (t : Nat) (v : List UInt8) : m.update t v t = some v := by
  simp [AttrMap.update]

/-- The attribute that was removed. -/
@[simp] theorem remove_same (m : AttrMap) (t : Nat) : m.remove t t = none := by
  simp [AttrMap.remove]

/-- An update keeps the other attributes. -/
theorem update_other {t u : Nat} (m : AttrMap) (v : List UInt8) (h : u ≠ t) :
    m.update t v u = m u := by
  simp [AttrMap.update, h]

/-- A removal keeps the other attributes. -/
theorem remove_other {t u : Nat} (m : AttrMap) (h : u ≠ t) : m.remove t u = m u := by
  simp [AttrMap.remove, h]

section
variable (m : AttrMap) (t : Nat)

/-- A removal before an update does not matter. -/
@[simp] theorem update_remove (v : List UInt8) : (m.remove t).update t v = m.update t v := by
  simp [AttrMap.update, AttrMap.remove]

/-- The last update counts. -/
@[simp] theorem update_update (v w : List UInt8) : (m.update t v).update t w = m.update t w := by
  simp [AttrMap.update]

/-- An update before a removal does not matter. -/
@[simp] theorem remove_update (v : List UInt8) : (m.update t v).remove t = m.remove t := by
  simp [AttrMap.update, AttrMap.remove]

/-- A second removal does nothing. -/
@[simp] theorem remove_remove : (m.remove t).remove t = m.remove t := by
  simp [AttrMap.remove]

end

/-- Removals commute. -/
theorem remove_comm (m : AttrMap) (t u : Nat) : (m.remove t).remove u = (m.remove u).remove t := by
  funext x
  by_cases ht : x = t <;> by_cases hu : x = u <;> simp [AttrMap.remove, Function.update, ht, hu]

/-- The three blobs and the key type are four different attributes. -/
theorem opaque_types : CKA_IBM_OPAQUE ≠ CKA_IBM_OPAQUE_REENC ∧ CKA_IBM_OPAQUE ≠ CKA_IBM_OPAQUE_OLD ∧
    CKA_IBM_OPAQUE_REENC ≠ CKA_IBM_OPAQUE_OLD ∧ CKA_KEY_TYPE ≠ CKA_IBM_OPAQUE ∧
    CKA_KEY_TYPE ≠ CKA_IBM_OPAQUE_REENC ∧ CKA_KEY_TYPE ≠ CKA_IBM_OPAQUE_OLD := by
  decide

/-- The key type depends on its own attribute only. -/
theorem keyType_congr {m m' : AttrMap} (order : ByteOrder) (h : m' CKA_KEY_TYPE = m CKA_KEY_TYPE) :
    m'.keyType order = m.keyType order := by
  simp [AttrMap.keyType, h]

/-! ### The current object -/

/-- What the next step works on. -/
def current (o : SecureKey) : AttrMap := o.refresh.tmpl

/-- A token object has its file, and a copy in memory with the count of the shared memory is the
stored object. -/
def Fresh (o : SecureKey) : Prop :=
  o.isToken = true → o.removed = false ∧ (o.count = o.entryCount → o.tmpl = o.stored)

/-- The result of a step as the process sees it. -/
def view (x : CkRv × SecureKey) : CkRv × AttrMap := (x.1, current x.2)

/-- A token object stays one when it is reloaded. -/
@[simp] theorem refresh_isToken (o : SecureKey) : o.refresh.isToken = o.isToken := by
  unfold refresh
  split <;> rfl

/-- A reloaded object has the count of its entry. -/
theorem refresh_count (o : SecureKey) (h : o.isToken = true) :
    o.refresh.count = o.refresh.entryCount := by
  unfold refresh
  split
  · rfl
  · rename_i hn
    simpa [h] using hn

variable {o : SecureKey} {fail : Option FailPoint}

/-- An object that a step may work on: it is the refreshed copy of `m`, and it has its file. -/
structure Loaded (o : SecureKey) (m : AttrMap) : Prop where
  count : o.isToken = true → o.count = o.entryCount
  stored : o.isToken = true → o.stored = m
  file : o.isToken = true → o.removed = false

/-- A change of the copy in memory does not matter. -/
theorem Loaded.setTmpl {m : AttrMap} (h : Loaded o m) (t : AttrMap) :
    Loaded { o with tmpl := t } m := ⟨h.count, h.stored, h.file⟩

/-- The refreshed object is current, and for a token object it is the stored one. -/
theorem refresh_loaded (h : Fresh o) :
    o.refresh.isToken = o.isToken ∧ current o = o.refresh.tmpl ∧
      Loaded o.refresh o.refresh.tmpl := by
  have ht := refresh_isToken o
  refine ⟨ht, rfl, fun hr => refresh_count o (ht.symm.trans hr), fun hr => ?_, fun hr => ?_⟩
  all_goals
    have hto : o.isToken = true := ht.symm.trans hr
    unfold refresh
    split
  · rfl
  · rename_i hn
    have hc : o.count = o.entryCount := by simpa [hto] using hn
    exact ((h hto).2 hc).symm
  all_goals exact (h hto).1

/-- An object that is up to date shows its own template. -/
theorem current_of_count (h : o.isToken = true → o.count = o.entryCount) : current o = o.tmpl := by
  unfold current refresh
  split
  · rename_i hn
    simp only [Bool.and_eq_true, decide_eq_true_eq] at hn
    exact absurd (h hn.1) hn.2
  · rfl

/-- It does not matter whether an object is reloaded if the store has the same. -/
theorem current_of_stored (h : o.stored = o.tmpl) : current o = o.tmpl := by
  unfold current refresh
  split
  · exact h
  · rfl

/-- An object that has its file can be loaded. -/
theorem unloadable_of_file (h : o.isToken = true → o.removed = false) : o.unloadable = false := by
  unfold SecureKey.unloadable
  cases ht : o.isToken with
  | false => rfl
  | true => rw [h ht, Bool.and_false]

/-- A reload changes nothing that shows. -/
theorem current_refresh (o : SecureKey) : current o.refresh = current o :=
  current_of_count fun h => refresh_count o ((refresh_isToken o).symm.trans h)

/-! ### What a step can do -/

/-- Either `object_mgr_check_shm` fails and nothing happens, or the step works on the refreshed
object. -/
theorem checkShm_rule {P : CkRv × SecureKey → Prop} {next : SecureKey → CkRv × SecureKey}
    (hload : o.unloadable = false)
    (hfail : ∀ f, fail = some (.check f) → o.isToken = true → P (f.rc, o))
    (hnext : (∀ f, fail = some (.check f) → o.isToken = false) → P (next o.refresh)) :
    P (o.checkShm fail next) := by
  unfold checkShm
  split
  · rename_i f
    cases ht : o.isToken with
    | true => exact hfail f rfl ht
    | false => exact hnext fun _ _ => ht
  · rename_i hn
    rw [hload, if_neg Bool.false_ne_true]
    exact hnext fun f hf => absurd hf (hn f)

/-- A step of an object that cannot be loaded fails. -/
theorem checkShm_unloadable {next : SecureKey → CkRv × SecureKey} (h : o.unloadable = true) :
    o.checkShm none next = (.functionFailed, o) :=
  if_pos h

/-- The failures of a save. -/
def SaveFails : FailPoint → Prop
  | .save _ | .fileLost _ | .index _ | .unlock _ => True
  | _ => False

/-- The failures of a save after the object has been stored. -/
def IsLate : FailPoint → Prop
  | .index _ | .unlock _ => True
  | _ => False

/-- The failures of a save after which finalize cannot be repeated. -/
def SpoilsFinalize : FailPoint → Prop
  | .fileLost _ | .index _ | .unlock _ => True
  | _ => False

/-- What a save can do to a copy of `m`: it succeeds, it fails and the next step will reload `m`,
it fails after it stored the object, or the file is gone. -/
inductive Saved (o : SecureKey) (m : AttrMap) (fail : Option FailPoint) (x : CkRv × SecureKey) :
    Prop
  | done (hgo : o.isToken = true → ∀ p, fail = some p → ¬ SaveFails p)
      (hrc : x.1 = .ok) (hcur : current x.2 = o.tmpl) (hfresh : Fresh x.2)
      (hsame : x.2.isToken = o.isToken)
  | lost (f : ErrorRv) (ht : o.isToken = true) (hfail : fail = some (.save f)) (hrc : x.1 ≠ .ok)
      (hload : x.2.unloadable = false) (hcur : current x.2 = m)
  | kept (p : FailPoint) (ht : o.isToken = true) (hfail : fail = some p) (hlate : IsLate p)
      (hrc : x.1 ≠ .ok) (hload : x.2.unloadable = false) (hcur : current x.2 = o.tmpl)
  | gone (f : ErrorRv) (ht : o.isToken = true) (hfail : fail = some (.fileLost f))
      (hrc : x.1 ≠ .ok) (hlost : x.2.unloadable = true)

/-- A save changes the count. -/
theorem next_ne (c : ObjCount) : c.next ≠ c := by
  intro h
  have hlo : (c.lo + 1).toNat = c.lo.toNat := congrArg (fun d => d.lo.toNat) h
  rw [UInt64.toNat_add, UInt64.toNat_one] at hlo
  omega

/-- What a save can do. -/
theorem save_cases (fail : Option FailPoint) {m : AttrMap} (h : Loaded o m) :
    Saved o m fail (o.save fail) := by
  unfold SecureKey.save
  cases ht : o.isToken with
  | false =>
    have hfresh : Fresh o := fun h => absurd (ht.symm.trans h) Bool.false_ne_true
    exact .done (fun h => absurd (ht.symm.trans h) Bool.false_ne_true) rfl
      (current_of_count h.count) hfresh rfl
  | true =>
    -- the count of the saved object differs from the old count
    have hne : o.count.next ≠ o.entryCount := h.count ht ▸ next_ne o.count
    rw [if_pos rfl]
    split
    · rename_i f
      exact .lost f ht rfl f.rc_ne_ok (unloadable_of_file fun _ => h.file ht)
        (by simp [current, refresh, hne, h.stored ht])
    · rename_i f
      exact .gone f ht rfl f.rc_ne_ok (by simp [SecureKey.unloadable, hne])
    · rename_i f
      exact .kept _ ht rfl trivial f.rc_ne_ok (unloadable_of_file fun _ => rfl)
        (current_of_stored rfl)
    · rename_i f
      exact .kept _ ht rfl trivial f.rc_ne_ok (unloadable_of_file fun _ => rfl)
        (current_of_stored rfl)
    · rename_i h₁ h₂ h₃ h₄
      refine .done (fun _ p hp hfails => ?_) rfl (current_of_stored rfl)
        (fun _ => ⟨rfl, fun _ => rfl⟩) ht.symm
      cases p with
      | save f => exact h₁ f hp
      | fileLost f => exact h₂ f hp
      | index f => exact h₃ f hp
      | unlock f => exact h₄ f hp
      | _ => exact hfails

variable {order : ByteOrder}

/-- What `obj_mgr_reencipher_secure_key` without a failure does to the current object. -/
def reencipherView (order : ByteOrder) (r : Reenc) (m : AttrMap) : CkRv × AttrMap :=
  match m.keyType order, m CKA_IBM_OPAQUE with
  | some keyType, some blob =>
      match r.apply (keyType = CKK_AES_XTS) blob with
      | .error f  => (f.rc, m)
      | .ok reenc => (.ok, m.update CKA_IBM_OPAQUE_REENC reenc)
  | _, _ => (.attributeTypeInvalid, m)

/-- What `obj_mgr_reencipher_secure_key_finalize` without a failure does to the current object. -/
def finalizeView (order : ByteOrder) (isBlobNewMk : List UInt8 → Bool) (m : AttrMap) :
    CkRv × AttrMap :=
  match m.keyType order, m CKA_IBM_OPAQUE_REENC, m CKA_IBM_OPAQUE with
  | some keyType, some reenc, some blob =>
      if isBlobNewMk (checkedPart (keyType = CKK_AES_XTS) blob) then
        (.ok, m.remove CKA_IBM_OPAQUE_REENC)
      else
        (.ok, ((m.update CKA_IBM_OPAQUE_OLD blob).update CKA_IBM_OPAQUE reenc).remove
          CKA_IBM_OPAQUE_REENC)
  | _, _, _ => (.attributeTypeInvalid, m)

/-- What `obj_mgr_reencipher_secure_key_cancel` without a failure does to the current object. -/
def cancelView (m : AttrMap) : CkRv × AttrMap :=
  (.ok, (m.remove CKA_IBM_OPAQUE_REENC).remove CKA_IBM_OPAQUE_OLD)

/-- A save that succeeds shows the template. -/
theorem view_save_none (hc : o.isToken = true → o.count = o.entryCount) :
    view (o.save none) = (.ok, o.tmpl) := by
  unfold SecureKey.save
  split
  · exact congrArg (Prod.mk _) (current_of_stored rfl)
  · exact congrArg (Prod.mk _) (current_of_count hc)

/-- A reloaded object shows its template. -/
theorem view_refresh (rc : CkRv) (o : SecureKey) : view (rc, o.refresh) = (rc, o.refresh.tmpl) :=
  congrArg (Prod.mk rc) (current_refresh o)

/-- A reloaded object is up to date. -/
theorem refresh_count_change (o : SecureKey) :
    o.refresh.isToken = true → o.refresh.count = o.refresh.entryCount := fun h =>
  refresh_count o ((refresh_isToken o).symm.trans h)

/-- Removing the attribute twice is removing it once. -/
theorem removeReenc_again (o : SecureKey) (fail : Option FailPoint) :
    { o with tmpl := o.tmpl.remove CKA_IBM_OPAQUE_REENC }.removeReenc fail =
      o.removeReenc fail := by
  simp [SecureKey.removeReenc]

section Views
variable (hload : o.unloadable = false)
include hload

/-- Without failures, reenciphering shows as `reencipherView`. -/
theorem view_reencipher (r : Reenc) :
    view (objMgrReencipherSecureKey order r o none) = reencipherView order r (current o) := by
  have hc := refresh_count_change o
  unfold objMgrReencipherSecureKey reencipherView current
  simp only [checkShm, hload, Bool.false_eq_true, if_false]
  cases o.refresh.tmpl.keyType order with
  | none => exact view_refresh _ o
  | some keyType =>
    cases o.refresh.tmpl CKA_IBM_OPAQUE with
    | none => exact view_refresh _ o
    | some blob =>
      dsimp only
      cases r.apply (keyType = CKK_AES_XTS) blob with
      | error f => exact view_refresh _ o
      | ok reenc => exact view_save_none hc

/-- Without failures, finalize shows as `finalizeView`. -/
theorem view_finalize (isBlobNewMk : List UInt8 → Bool) :
    view (objMgrReencipherSecureKeyFinalize order isBlobNewMk o none) =
      finalizeView order isBlobNewMk (current o) := by
  have hc := refresh_count_change o
  unfold objMgrReencipherSecureKeyFinalize finalizeView current
  simp only [checkShm, hload, Bool.false_eq_true, if_false]
  cases o.refresh.tmpl.keyType order with
  | none => exact view_refresh _ o
  | some keyType =>
    cases o.refresh.tmpl CKA_IBM_OPAQUE_REENC with
    | none => exact view_refresh _ o
    | some reenc =>
      cases o.refresh.tmpl CKA_IBM_OPAQUE with
      | none => exact view_refresh _ o
      | some blob =>
        dsimp only
        split
        · rw [removeReenc_again]
          exact view_save_none hc
        · exact view_save_none hc

/-- Without failures, cancel shows as `cancelView`. -/
theorem view_cancel : view (objMgrReencipherSecureKeyCancel o none) = cancelView (current o) := by
  unfold objMgrReencipherSecureKeyCancel
  simp only [checkShm, hload, Bool.false_eq_true, if_false]
  exact view_save_none (refresh_count_change o)

end Views

/-! ### Where a step stops -/

/-- The failures that stop every step of a token object. -/
def StopsToken (o : SecureKey) : FailPoint → Prop
  | .check _ | .save _ | .fileLost _ | .index _ | .unlock _ => o.isToken = true
  | _ => False

/-- The failures that stop `obj_mgr_reencipher_secure_key`. -/
def StopsReencipher (o : SecureKey) : FailPoint → Prop
  | .reenc _ | .build | .insert => True
  | p => StopsToken o p

/-- The failures that stop `obj_mgr_reencipher_secure_key_finalize`. No attribute is built if the
blob is a new one already. -/
def StopsFinalize (o : SecureKey) (isNew : Bool) : FailPoint → Prop
  | .buildOld | .insertOld | .build | .insert => isNew = false
  | p => StopsToken o p

/-- A failure that stops a token object shows in the check or in the save. -/
theorem not_stopsToken (hcheck : ∀ f, fail = some (.check f) → o.isToken = false)
    (hsave : o.isToken = true → ∀ p, fail = some p → ¬ SaveFails p) :
    ∀ p, fail = some p → ¬ StopsToken o p := by
  intro p hp hstop
  cases p with
  | check f => exact Bool.false_ne_true ((hcheck f hp).symm.trans hstop)
  | save f | fileLost f | index f | unlock f => exact hsave hstop _ hp trivial
  | reenc | buildOld | insertOld | build | insert => exact hstop

section
variable {p : FailPoint} (h : IsLate p) (ht : o.isToken = true)
include h ht

/-- A late failure stops every step of a token object. -/
theorem IsLate.stopsToken : StopsToken o p := by
  cases p with
  | index f | unlock f => exact ht
  | _ => exact h.elim

/-- A late failure stops reenciphering. -/
theorem IsLate.stopsReencipher : StopsReencipher o p := by
  cases p with
  | index f | unlock f => exact ht
  | _ => exact h.elim

end

section
variable {p : FailPoint} (h : IsLate p)
include h

/-- At a late failure the file is there. -/
theorem IsLate.ne_fileLost (f : ErrorRv) : p ≠ .fileLost f := by
  rintro rfl
  exact h

/-- After a late failure finalize cannot be repeated. -/
theorem IsLate.spoilsFinalize : SpoilsFinalize p := by
  cases p with
  | index f | unlock f => trivial
  | _ => exact h.elim

end

/-- A failure that spoils finalize stops it. -/
theorem SpoilsFinalize.stops {p : FailPoint} {isNew : Bool} (h : SpoilsFinalize p)
    (ht : o.isToken = true) : StopsFinalize o isNew p := by
  cases p with
  | fileLost f | index f | unlock f => exact ht
  | _ => exact h.elim

/-- What `obj_mgr_reencipher_secure_key` can do to an object that shows `m`. -/
inductive Reenciphered (r : Reenc) (xts : Bool) (blob : List UInt8) (o : SecureKey)
    (fail : Option FailPoint) (m : AttrMap) (x : CkRv × SecureKey) : Prop
  | done (reenc : List UInt8) (happly : r.apply xts blob = .ok reenc)
      (hgo : ∀ p, fail = some p → ¬ StopsReencipher o p) (hrc : x.1 = .ok)
      (hcur : current x.2 = m.update CKA_IBM_OPAQUE_REENC reenc) (hfresh : Fresh x.2)
      (hsame : x.2.isToken = o.isToken)
  | refused (e : ErrorRv) (happly : r.apply xts blob = .error e) (hrc : x.1 ≠ .ok)
      (hload : x.2.unloadable = false) (hcur : current x.2 = m)
  | stopped (p : FailPoint) (hfail : fail = some p) (hstop : StopsReencipher o p)
      (hfile : ∀ f, p ≠ .fileLost f) (hrc : x.1 ≠ .ok) (hload : x.2.unloadable = false)
      (hcur : current x.2 = m ∨ ∃ reenc, r.apply xts blob = .ok reenc ∧
        (current x.2 = m.remove CKA_IBM_OPAQUE_REENC ∨
          current x.2 = m.update CKA_IBM_OPAQUE_REENC reenc))
  | gone (f : ErrorRv) (hfail : fail = some (.fileLost f)) (ht : o.isToken = true)
      (reenc : List UInt8) (happly : r.apply xts blob = .ok reenc) (hrc : x.1 ≠ .ok)
      (hlost : x.2.unloadable = true)

/-- What reenciphering can do. -/
theorem reencipher_cases (r : Reenc) (fail : Option FailPoint) {keyType : Nat} {blob : List UInt8}
    (hf : Fresh o) (hk : (current o).keyType order = some keyType)
    (hb : current o CKA_IBM_OPAQUE = some blob) :
    Reenciphered r (keyType = CKK_AES_XTS) blob o fail (current o)
      (objMgrReencipherSecureKey order r o fail) := by
  have hload : o.unloadable = false := unloadable_of_file fun ht => (hf ht).1
  refine checkShm_rule hload (fun f hfail ht => ?_) fun hcheck => ?_
  · exact .stopped _ hfail ht (fun _ => FailPoint.noConfusion) f.rc_ne_ok hload (.inl rfl)
  obtain ⟨ht, hcur, hloaded⟩ := refresh_loaded hf
  rw [hcur] at hk hb ⊢
  generalize o.refresh = o' at *
  have hload' : o'.unloadable = false := unloadable_of_file hloaded.file
  have hcur' : current o' = o'.tmpl := current_of_count hloaded.count
  rw [hk, hb]
  dsimp only
  -- the callback is not called if the attribute for its result cannot be built
  split
  · exact .stopped _ rfl trivial (fun _ => FailPoint.noConfusion) CkRv.noConfusion hload'
      (.inl hcur')
  · rename_i f
    exact .stopped _ rfl trivial (fun _ => FailPoint.noConfusion) f.rc_ne_ok hload' (.inl hcur')
  rename_i hbuild hreenc
  cases happly : r.apply (keyType = CKK_AES_XTS) blob with
  | error e => exact .refused e happly e.rc_ne_ok hload' hcur'
  | ok reenc =>
    dsimp only [SecureKey.insert]
    split
    · exact .stopped _ rfl trivial (fun _ => FailPoint.noConfusion) CkRv.noConfusion
        (unloadable_of_file hloaded.file)
        (.inr ⟨reenc, happly, .inl (current_of_count hloaded.count)⟩)
    rename_i hinsert
    cases save_cases fail (hloaded.setTmpl (o'.tmpl.update CKA_IBM_OPAQUE_REENC reenc)) with
    | done hgo hrc hnew hfresh hsame =>
      refine .done reenc happly (fun p hp hstop => ?_) hrc hnew hfresh (hsame.trans ht)
      have htoken := not_stopsToken hcheck (fun h => hgo (ht.trans h)) p hp
      cases p with
      | reenc f => exact hreenc f hp
      | build => exact hbuild hp
      | insert => exact hinsert hp
      | check | buildOld | insertOld | save | fileLost | index | unlock => exact htoken hstop
    | lost f hn hfail hrc hload hnew =>
      exact .stopped _ hfail (ht.symm.trans hn) (fun _ => FailPoint.noConfusion) hrc hload
        (.inl hnew)
    | kept p hn hfail hlate hrc hload hnew =>
      exact .stopped p hfail (hlate.stopsReencipher (ht.symm.trans hn)) hlate.ne_fileLost hrc hload
        (.inr ⟨reenc, happly, .inr hnew⟩)
    | gone f hn hfail hrc hlost => exact .gone f hfail (ht.symm.trans hn) reenc happly hrc hlost

/-- What `obj_mgr_reencipher_secure_key_finalize` can do to an object that shows `m`, where `m'` is
its purpose. -/
inductive Finalized (isNew : Bool) (blob : List UInt8) (o : SecureKey) (fail : Option FailPoint)
    (m m' : AttrMap) (x : CkRv × SecureKey) : Prop
  | done (hgo : ∀ p, fail = some p → ¬ StopsFinalize o isNew p) (hrc : x.1 = .ok)
      (hcur : current x.2 = m')
  | stopped (p : FailPoint) (hfail : fail = some p) (hstop : StopsFinalize o isNew p)
      (hrc : x.1 ≠ .ok) (hload : x.2.unloadable = false) (hinsert : p ≠ .insert)
      (hearly : ¬ SpoilsFinalize p)
      (hcur : current x.2 = m ∨ isNew = false ∧ (current x.2 = m.remove CKA_IBM_OPAQUE_OLD ∨
        current x.2 = m.update CKA_IBM_OPAQUE_OLD blob))
  | blobLost (hfail : fail = some .insert) (hnew : isNew = false) (hrc : x.1 ≠ .ok)
      (hload : x.2.unloadable = false)
      (hcur : current x.2 = (m.update CKA_IBM_OPAQUE_OLD blob).remove CKA_IBM_OPAQUE)
  | spoilt (p : FailPoint) (hfail : fail = some p) (hspoils : SpoilsFinalize p)
      (ht : o.isToken = true) (hrc : x.1 ≠ .ok)
      (hcur : x.2.unloadable = true ∨ x.2.unloadable = false ∧ current x.2 = m')

/-- What the end of finalize can do. -/
theorem removeReenc_cases {isNew : Bool} {blob : List UInt8} {n : SecureKey} {m : AttrMap}
    (ht : n.isToken = o.isToken) (hloaded : Loaded n m)
    (hcheck : ∀ f, fail = some (.check f) → o.isToken = false)
    (hbuild : isNew = false → ∀ p ∈ [FailPoint.buildOld, .insertOld, .build, .insert], fail ≠ some
      p) :
    Finalized isNew blob o fail m (n.tmpl.remove CKA_IBM_OPAQUE_REENC) (n.removeReenc fail) := by
  cases save_cases fail (hloaded.setTmpl (n.tmpl.remove CKA_IBM_OPAQUE_REENC)) with
  | done hgo hrc hnew =>
    refine .done (fun p hp hstop => ?_) hrc hnew
    have htoken := not_stopsToken hcheck (fun h => hgo (ht.trans h)) p hp
    cases p with
    | buildOld | insertOld | build | insert => exact hbuild hstop _ (by simp) hp
    | check | reenc | save | fileLost | index | unlock => exact htoken hstop
  | lost f hn hfail hrc hload hnew =>
    exact .stopped _ hfail (ht.symm.trans hn) hrc hload FailPoint.noConfusion id (.inl hnew)
  | kept p hn hfail hlate hrc hload hnew =>
    exact .spoilt p hfail hlate.spoilsFinalize (ht.symm.trans hn) hrc (.inr ⟨hload, hnew⟩)
  | gone f hn hfail hrc hlost => exact .spoilt _ hfail trivial (ht.symm.trans hn) hrc (.inl hlost)

/-- What finalize can do. -/
theorem finalize_cases (isBlobNewMk : List UInt8 → Bool) (fail : Option FailPoint) {keyType : Nat}
    {reenc blob : List UInt8} (hf : Fresh o) (hk : (current o).keyType order = some keyType)
    (hr : current o CKA_IBM_OPAQUE_REENC = some reenc) (hb : current o CKA_IBM_OPAQUE = some blob) :
    Finalized (isBlobNewMk (checkedPart (keyType = CKK_AES_XTS) blob)) blob o fail (current o)
      (finalizeView order isBlobNewMk (current o)).2
      (objMgrReencipherSecureKeyFinalize order isBlobNewMk o fail) := by
  have hload : o.unloadable = false := unloadable_of_file fun ht => (hf ht).1
  -- A failure of the check of the shared memory comes before the object is touched.
  refine checkShm_rule hload (fun f hfail ht => ?_) fun hcheck => ?_
  · exact .stopped _ hfail ht f.rc_ne_ok hload FailPoint.noConfusion id (.inl rfl)
  obtain ⟨ht, hcur, hloaded⟩ := refresh_loaded hf
  unfold finalizeView
  rw [hcur] at hk hr hb ⊢
  generalize o.refresh = o' at *
  rw [hk, hr, hb]
  dsimp only
  cases hnew : isBlobNewMk (checkedPart (keyType = CKK_AES_XTS) blob) with
  | true =>
    rw [if_pos rfl, if_pos rfl, removeReenc_again]
    exact removeReenc_cases ht hloaded hcheck nofun
  | false =>
    rw [if_neg Bool.false_ne_true, if_neg Bool.false_ne_true]
    have hload' (t : AttrMap) : { o' with tmpl := t }.unloadable = false :=
      unloadable_of_file hloaded.file
    have hcur' (t : AttrMap) : current { o' with tmpl := t } = t := current_of_count hloaded.count
    -- The stops in the order of the source, with what the template holds at each of them.
    unfold moveOld
    split
    · exact .stopped _ rfl rfl CkRv.noConfusion (hload' _) FailPoint.noConfusion id
        (.inl (hcur' _))
    · exact .stopped _ rfl rfl CkRv.noConfusion (hload' _) FailPoint.noConfusion id
        (.inr ⟨rfl, .inl (hcur' _)⟩)
    · exact .stopped _ rfl rfl CkRv.noConfusion (hload' _) FailPoint.noConfusion id
        (.inr ⟨rfl, .inr (hcur' _)⟩)
    rename_i h₁ h₂ h₃
    dsimp only [SecureKey.insert]
    split
    · exact .blobLost rfl rfl CkRv.noConfusion (hload' _) (hcur' _)
    rename_i h₄
    -- Nothing has stopped the move, and what is left is the removal of the attribute.
    refine removeReenc_cases (n := { o' with
      tmpl := (o'.tmpl.update CKA_IBM_OPAQUE_OLD blob).update CKA_IBM_OPAQUE reenc })
      ht (hloaded.setTmpl _) hcheck fun _ p hp => ?_
    simp only [List.mem_cons, List.not_mem_nil, or_false] at hp
    rcases hp with rfl | rfl | rfl | rfl
    · exact h₁
    · exact h₂
    · exact h₃
    · exact h₄

/-- What `obj_mgr_reencipher_secure_key_cancel` can do to an object that shows `m`. -/
inductive Cancelled (o : SecureKey) (fail : Option FailPoint) (m : AttrMap)
    (x : CkRv × SecureKey) : Prop
  | done (hgo : ∀ p, fail = some p → ¬ StopsToken o p) (hrc : x.1 = .ok)
      (hcur : current x.2 = (cancelView m).2)
  | stopped (p : FailPoint) (hfail : fail = some p) (hstop : StopsToken o p)
      (hfile : ∀ f, p ≠ .fileLost f) (hrc : x.1 ≠ .ok) (hload : x.2.unloadable = false)
      (hcur : current x.2 = m ∨ current x.2 = (cancelView m).2)
  | gone (f : ErrorRv) (hfail : fail = some (.fileLost f)) (ht : o.isToken = true)
      (hrc : x.1 ≠ .ok) (hlost : x.2.unloadable = true)

/-- What cancel can do. -/
theorem cancel_cases (fail : Option FailPoint) (hf : Fresh o) :
    Cancelled o fail (current o) (objMgrReencipherSecureKeyCancel o fail) := by
  have hload : o.unloadable = false := unloadable_of_file fun ht => (hf ht).1
  refine checkShm_rule hload (fun f hfail ht => ?_) fun hcheck => ?_
  · exact .stopped _ hfail ht (fun _ => FailPoint.noConfusion) f.rc_ne_ok hload (.inl rfl)
  obtain ⟨ht, hcur, hloaded⟩ := refresh_loaded hf
  rw [hcur]
  generalize o.refresh = o' at *
  cases save_cases fail (hloaded.setTmpl (cancelView o'.tmpl).2) with
  | done hgo hrc hnew => exact .done (not_stopsToken hcheck fun h => hgo (ht.trans h)) hrc hnew
  | lost f hn hfail hrc hload hnew =>
    exact .stopped _ hfail (ht.symm.trans hn) (fun _ => FailPoint.noConfusion) hrc hload (.inl hnew)
  | kept p hn hfail hlate hrc hload hnew =>
    exact .stopped p hfail (hlate.stopsToken (ht.symm.trans hn)) hlate.ne_fileLost hrc hload
      (.inr hnew)
  | gone f hn hfail hrc hlost => exact .gone f hfail (ht.symm.trans hn) hrc hlost

/-! ### The three steps together -/

/-- The new blob a key should get: an AES-XTS key is two secure keys, one after the other. -/
def reencHalves (r : Reenc) (xts : Bool) (blob : List UInt8) : Except ErrorRv (List UInt8) :=
  if xts then do
    let first ← r.f (blob.take (blob.length / 2))
    let second ← r.f (blob.drop (blob.length / 2))
    return first ++ second
  else r.f blob

/-- The re-encipher function maps both halves of an AES-XTS key to the second half. -/
def SameHalves (r : Reenc) (blob : List UInt8) : Prop :=
  r.f (blob.drop (blob.length / 2)) = .ok (blob.drop (blob.length / 2)) ∧
    r.f (blob.take (blob.length / 2)) = r.f ((blob.drop (blob.length / 2)).take (blob.length / 2))

/-- What re-enciphering gives for an AES-XTS key. -/
theorem apply_xts_eq_ok {r : Reenc} {blob reenc : List UInt8} (h : r.apply true blob = .ok reenc) :
    ∃ first second, r.f (blob.take (blob.length / 2)) = .ok first ∧
      r.f ((blob.drop (blob.length / 2)).take (blob.length / 2)) = .ok second ∧
      first.length = blob.length / 2 ∧ second.length = blob.length / 2 ∧
      reenc = second ++ blob.drop (blob.length / 2) := by
  unfold Reenc.apply at h
  rw [if_pos rfl] at h
  obtain ⟨first, hfirst, h⟩ := bind_eq_ok.mp h
  obtain ⟨second, hsecond, h⟩ := bind_eq_ok.mp h
  have h₁ : first.length = blob.length / 2 := by
    have := r.length_eq _ _ hfirst
    simp only [List.length_take] at this
    omega
  have h₂ : second.length = blob.length / 2 := by
    have := r.length_eq _ _ hsecond
    simp only [List.length_take, List.length_drop] at this
    omega
  refine ⟨first, second, hfirst, hsecond, h₁, h₂, ?_⟩
  cases h
  rw [h₁, h₂, List.drop_left' h₁]

/-- The code gives the value it should give exactly if the key is not an AES-XTS key or has
`SameHalves`. -/
theorem halves_eq_iff {r : Reenc} {xts : Bool} {blob reenc : List UInt8}
    (h : r.apply xts blob = .ok reenc) :
    reencHalves r xts blob = .ok reenc ↔ (xts = true → SameHalves r blob) := by
  cases xts with
  | false => simpa [reencHalves, Reenc.apply] using h
  | true =>
    obtain ⟨first, second, hfirst, hsecond, h₁, h₂, rfl⟩ := apply_xts_eq_ok h
    simp only [reencHalves, if_pos, SameHalves, hfirst, hsecond, forall_const]
    constructor
    · intro hv
      obtain ⟨_, hok, hv⟩ := bind_eq_ok.mp hv
      cases hok
      obtain ⟨third, hthird, hv⟩ := bind_eq_ok.mp hv
      have heq : first ++ third = second ++ blob.drop (blob.length / 2) := Except.ok.inj hv
      obtain ⟨rfl, rfl⟩ := List.append_inj heq (h₁.trans h₂.symm)
      exact ⟨hthird, rfl⟩
    · rintro ⟨hthird, heq⟩
      cases heq
      rw [hthird]
      rfl

/-- What the three steps should do to a key with the blob `blob`: `x` is what re-enciphering gave,
and `y` and `z` are what finalize and cancel gave after that. -/
structure ReenciphersKey (order : ByteOrder) (r : Reenc) (isBlobNewMk : List UInt8 → Bool)
    (o : SecureKey) (xts : Bool) (blob : List UInt8) (x y z : CkRv × SecureKey) : Prop where
  /-- The new blob is right and the key is unchanged. -/
  reencipher : x.1 = .ok → ∃ reenc, reencHalves r xts blob = .ok reenc ∧
    current x.2 CKA_IBM_OPAQUE_REENC = some reenc ∧ current x.2 CKA_IBM_OPAQUE = some blob
  /-- The new blob is the key, and the previous blob is kept. -/
  finalize : x.1 = .ok → y.1 = .ok → ∃ reenc, reencHalves r xts blob = .ok reenc ∧
    current y.2 CKA_IBM_OPAQUE = some reenc ∧ current y.2 CKA_IBM_OPAQUE_OLD = some blob ∧
    current y.2 CKA_IBM_OPAQUE_REENC = none
  /-- The object is as before. -/
  cancel : x.1 = .ok → z.1 = .ok → current z.2 = current o
  /-- A step that failed can be repeated with the result that it would have had. -/
  reencipher_again : x.1 ≠ .ok → view (objMgrReencipherSecureKey order r x.2 none) =
    view (objMgrReencipherSecureKey order r o none)
  finalize_again : x.1 = .ok → y.1 ≠ .ok →
    view (objMgrReencipherSecureKeyFinalize order isBlobNewMk y.2 none) =
      view (objMgrReencipherSecureKeyFinalize order isBlobNewMk x.2 none)
  cancel_again : x.1 = .ok → z.1 ≠ .ok → view (objMgrReencipherSecureKeyCancel z.2 none) =
      view (objMgrReencipherSecureKeyCancel x.2 none)

/-- When a key that is re-enciphered comes to no harm. -/
structure KeyUnharmed (r : Reenc) (isNew : Bool) (o : SecureKey) (xts : Bool) (blob : List UInt8)
    (fail₂ fail₃ : Option FailPoint) : Prop where
  halves : xts = true → SameHalves r blob
  move : isNew = true → (∀ p, fail₂ = some p → ¬ StopsToken o p) →
    reencHalves r xts blob = .ok blob ∧ current o CKA_IBM_OPAQUE_OLD = some blob
  remove : (∀ p, fail₃ = some p → ¬ StopsToken o p) →
    current o CKA_IBM_OPAQUE_REENC = none ∧ current o CKA_IBM_OPAQUE_OLD = none
  insert : isNew = false → fail₂ ≠ some .insert
  save : o.isToken = true → ∀ p, fail₂ = some p → ¬ SpoilsFinalize p
  file : o.isToken = true → ∀ f, fail₃ ≠ some (.fileLost f)

section Steps

variable {r : Reenc} {isBlobNewMk : List UInt8 → Bool} {m : AttrMap} {keyType : Nat}
  {blob reenc : List UInt8}

/-- The other attributes, after one has been removed or written. -/
theorem other_eq {m' : AttrMap} {c t : Nat}
    (hm : m' = m.remove c ∨ m' = m.update c blob) (ht : t ≠ c) : m' t = m t := by
  rcases hm with rfl | rfl
  · exact remove_other m ht
  · exact update_other m blob ht

/-- Re-enciphering does not read the attribute that it writes. -/
theorem reencipherView_again {m' : AttrMap} (hk : m.keyType order = some keyType)
    (hb : m CKA_IBM_OPAQUE = some blob) (happly : r.apply (keyType = CKK_AES_XTS) blob = .ok reenc)
    (hm : m' = m.remove CKA_IBM_OPAQUE_REENC ∨ m' = m.update CKA_IBM_OPAQUE_REENC reenc) :
    reencipherView order r m' = reencipherView order r m := by
  obtain ⟨h₁, -, -, -, h₅, -⟩ := opaque_types
  unfold reencipherView
  rw [other_eq hm h₁, keyType_congr order (other_eq hm h₅), hk, hb]
  dsimp only
  rw [happly]
  dsimp only
  rcases hm with rfl | rfl
  · rw [update_remove]
  · rw [update_update]

/-- Finalize needs both blobs. -/
theorem finalizeView_missing (order : ByteOrder) (isBlobNewMk : List UInt8 → Bool)
    (h : m CKA_IBM_OPAQUE = none ∨ m CKA_IBM_OPAQUE_REENC = none) :
    (finalizeView order isBlobNewMk m).1 = .attributeTypeInvalid := by
  unfold finalizeView
  rcases h with h | h <;> rw [h] <;> split <;> simp_all

section
variable (hk : m.keyType order = some keyType) (hr : m CKA_IBM_OPAQUE_REENC = some reenc)
  (hb : m CKA_IBM_OPAQUE = some blob)
include hk hr hb

/-- Finalize does not read the attribute for the old blob. -/
theorem finalizeView_again {m' : AttrMap}
    (hnew : isBlobNewMk (checkedPart (keyType = CKK_AES_XTS) blob) = false)
    (hm : m' = m.remove CKA_IBM_OPAQUE_OLD ∨ m' = m.update CKA_IBM_OPAQUE_OLD blob) :
    finalizeView order isBlobNewMk m' = finalizeView order isBlobNewMk m := by
  obtain ⟨-, h₂, h₃, -, -, h₆⟩ := opaque_types
  unfold finalizeView
  rw [other_eq hm h₂, other_eq hm h₃, keyType_congr order (other_eq hm h₆), hk, hr, hb]
  dsimp only
  rw [hnew, if_neg Bool.false_ne_true, if_neg Bool.false_ne_true]
  rcases hm with rfl | rfl
  · rw [update_remove]
  · rw [update_update]

/-- A blob that is a new one already is kept. -/
theorem finalizeView_new
    (hnew : isBlobNewMk (checkedPart (keyType = CKK_AES_XTS) blob) = true) :
    finalizeView order isBlobNewMk m = (.ok, m.remove CKA_IBM_OPAQUE_REENC) := by
  simp [finalizeView, hk, hr, hb, hnew]

/-- The new blob takes the place of the old one. -/
theorem finalizeView_old
    (hnew : isBlobNewMk (checkedPart (keyType = CKK_AES_XTS) blob) = false) :
    finalizeView order isBlobNewMk m =
      (.ok, ((m.update CKA_IBM_OPAQUE_OLD blob).update CKA_IBM_OPAQUE reenc).remove
        CKA_IBM_OPAQUE_REENC) := by
  simp [finalizeView, hk, hr, hb, hnew]

/-- Without failures finalize succeeds. -/
theorem finalizeView_rc : (finalizeView order isBlobNewMk m).1 = .ok := by
  cases hnew : isBlobNewMk (checkedPart (keyType = CKK_AES_XTS) blob) with
  | true => rw [finalizeView_new hk hr hb hnew]
  | false => rw [finalizeView_old hk hr hb hnew]

/-- Nothing is left of the reenciphered blob. -/
theorem finalizeView_reenc : (finalizeView order isBlobNewMk m).2 CKA_IBM_OPAQUE_REENC = none := by
  cases hnew : isBlobNewMk (checkedPart (keyType = CKK_AES_XTS) blob) with
  | true => simp [finalizeView_new hk hr hb hnew]
  | false => simp [finalizeView_old hk hr hb hnew]

end

variable {o : SecureKey}

section
variable (fail : Option FailPoint) (hf : Fresh o) (hk : (current o).keyType order = some keyType)
  (hr : current o CKA_IBM_OPAQUE_REENC = some reenc) (hb : current o CKA_IBM_OPAQUE = some blob)
include hf hk hr hb

/-- When finalize succeeds, and what it does then. -/
theorem finalize_ok (isBlobNewMk : List UInt8 → Bool) :
    ((objMgrReencipherSecureKeyFinalize order isBlobNewMk o fail).1 = .ok ↔ ∀ p, fail = some p →
        ¬ StopsFinalize o (isBlobNewMk (checkedPart (keyType = CKK_AES_XTS) blob)) p) ∧
      ((objMgrReencipherSecureKeyFinalize order isBlobNewMk o fail).1 = .ok →
        current (objMgrReencipherSecureKeyFinalize order isBlobNewMk o fail).2 =
          (finalizeView order isBlobNewMk (current o)).2) := by
  cases finalize_cases isBlobNewMk fail hf hk hr hb with
  | done hgo hrc hcur => exact ⟨iff_of_true hrc hgo, fun _ => hcur⟩
  | stopped p hfail hstop hrc =>
    exact ⟨iff_of_false hrc fun h => h p hfail hstop, fun h => absurd h hrc⟩
  | blobLost hfail hnew hrc =>
    exact ⟨iff_of_false hrc fun h => h _ hfail hnew, fun h => absurd h hrc⟩
  | spoilt p hfail hspoils ht hrc =>
    exact ⟨iff_of_false hrc fun h => h p hfail (hspoils.stops ht), fun h => absurd h hrc⟩

/-- When finalize can be repeated. -/
theorem finalize_again_iff (isBlobNewMk : List UInt8 → Bool) :
    ((objMgrReencipherSecureKeyFinalize order isBlobNewMk o fail).1 ≠ .ok →
        view (objMgrReencipherSecureKeyFinalize order isBlobNewMk
            (objMgrReencipherSecureKeyFinalize order isBlobNewMk o fail).2 none) =
          view (objMgrReencipherSecureKeyFinalize order isBlobNewMk o none)) ↔
      (isBlobNewMk (checkedPart (keyType = CKK_AES_XTS) blob) = false → fail ≠ some .insert) ∧
        (o.isToken = true → ∀ p, fail = some p → ¬ SpoilsFinalize p) := by
  rw [view_finalize (unloadable_of_file fun ht => (hf ht).1)]
  have hok : (finalizeView order isBlobNewMk (current o)).1 = .ok := finalizeView_rc hk hr hb
  cases finalize_cases isBlobNewMk fail hf hk hr hb with
  | done hgo hrc hcur =>
    exact iff_of_true (fun h => absurd hrc h) ⟨fun hnew hfail => hgo _ hfail hnew,
      fun ht p hfail hspoils => hgo p hfail (hspoils.stops ht)⟩
  | stopped p hfail hstop hrc hload hinsert hearly hcur =>
    refine iff_of_true (fun _ => ?_) ⟨fun _ h => ?_, fun _ q h => ?_⟩
    · rw [view_finalize hload]
      rcases hcur with hcur | ⟨hnew, hcur⟩
      · rw [hcur]
      · exact finalizeView_again hk hr hb hnew hcur
    · exact hinsert (Option.some.inj (hfail.symm.trans h))
    · rwa [← Option.some.inj (hfail.symm.trans h)]
  -- The blob was removed and not replaced, so a repetition does not find it.
  | blobLost hfail hnew hrc hload hcur =>
    rw [view_finalize hload]
    refine iff_of_false (fun h => ?_) fun h => h.1 hnew hfail
    have hbad := finalizeView_missing order isBlobNewMk (.inl (hcur ▸ remove_same _ _))
    rw [h hrc, hok] at hbad
    cases hbad
  -- The reenciphered blob is removed in memory, or the file cannot be loaded any more.
  | spoilt p hfail hspoils ht hrc hcur =>
    refine iff_of_false (fun h => ?_) fun h => h.2 ht p hfail hspoils
    rcases hcur with hlost | ⟨hload, hcur⟩
    · have hbad := congrArg Prod.fst (h hrc)
      rw [objMgrReencipherSecureKeyFinalize, checkShm_unloadable hlost, hok] at hbad
      cases hbad
    · rw [view_finalize hload] at h
      have hbad :=
        finalizeView_missing order isBlobNewMk (.inr (hcur ▸ finalizeView_reenc hk hr hb))
      rw [h hrc, hok] at hbad
      cases hbad

end

section
variable (fail : Option FailPoint) (hf : Fresh o)
include hf

/-- When cancel succeeds, and what it does then. -/
theorem cancel_ok :
    ((objMgrReencipherSecureKeyCancel o fail).1 = .ok ↔ ∀ p, fail = some p → ¬ StopsToken o p) ∧
      ((objMgrReencipherSecureKeyCancel o fail).1 = .ok →
        current (objMgrReencipherSecureKeyCancel o fail).2 = (cancelView (current o)).2) := by
  cases cancel_cases fail hf with
  | done hgo hrc hcur => exact ⟨iff_of_true hrc hgo, fun _ => hcur⟩
  | stopped p hfail hstop _ hrc =>
    exact ⟨iff_of_false hrc fun h => h p hfail hstop, fun h => absurd h hrc⟩
  | gone f hfail ht hrc => exact ⟨iff_of_false hrc fun h => h _ hfail ht, fun h => absurd h hrc⟩

/-- Cancel can be repeated unless the file is gone. -/
theorem cancel_again_iff :
    ((objMgrReencipherSecureKeyCancel o fail).1 ≠ .ok →
        view (objMgrReencipherSecureKeyCancel (objMgrReencipherSecureKeyCancel o fail).2 none) =
          view (objMgrReencipherSecureKeyCancel o none)) ↔
      (o.isToken = true → ∀ f, fail ≠ some (.fileLost f)) := by
  have hagain : cancelView (cancelView (current o)).2 = cancelView (current o) := by
    simp only [cancelView, remove_comm _ CKA_IBM_OPAQUE_OLD CKA_IBM_OPAQUE_REENC, remove_remove]
  rw [view_cancel (unloadable_of_file fun ht => (hf ht).1)]
  cases cancel_cases fail hf with
  | done hgo hrc => exact iff_of_true (fun h => absurd hrc h) fun ht f hfail => hgo _ hfail ht
  | stopped p hfail _ hfile hrc hload hcur =>
    refine iff_of_true (fun _ => ?_) fun _ f h => hfile f (Option.some.inj (hfail.symm.trans h))
    rw [view_cancel hload]
    rcases hcur with hcur | hcur
    · rw [hcur]
    · rw [hcur, hagain]
  | gone f hfail ht hrc hlost =>
    refine iff_of_false (fun h => ?_) fun h => h ht f hfail
    have hbad := congrArg Prod.fst (h hrc)
    rw [objMgrReencipherSecureKeyCancel, checkShm_unloadable hlost] at hbad
    cases hbad

end

end Steps

section
variable {o' : SecureKey} (h : o'.isToken = o.isToken) (p : FailPoint)
include h

/-- What stops an object depends only on whether it is a token object. -/
theorem stopsToken_congr : StopsToken o' p ↔ StopsToken o p := by
  cases p <;> simp [StopsToken, h]

/-- A blob that is not moved is only at risk when the object is saved. -/
theorem stopsFinalize_new : StopsFinalize o' true p ↔ StopsToken o p := by
  cases p <;> simp [StopsFinalize, StopsToken, h]

end

/-- Cancel after re-encipher leaves the object as it was exactly if neither of the two attributes
was there. -/
theorem cancel_reencipher_iff (m : AttrMap) (reenc : List UInt8) :
    (cancelView (m.update CKA_IBM_OPAQUE_REENC reenc)).2 = m ↔
      m CKA_IBM_OPAQUE_REENC = none ∧ m CKA_IBM_OPAQUE_OLD = none := by
  obtain ⟨-, -, h₃, -⟩ := opaque_types
  have hview : (cancelView (m.update CKA_IBM_OPAQUE_REENC reenc)).2 =
      (m.remove CKA_IBM_OPAQUE_REENC).remove CKA_IBM_OPAQUE_OLD := by
    simp [cancelView]
  rw [hview]
  constructor
  · intro h
    rw [← h]
    exact ⟨(remove_other _ h₃).trans (remove_same m _), remove_same _ _⟩
  · rintro ⟨hr, ho⟩
    funext t
    by_cases ht : t = CKA_IBM_OPAQUE_OLD
    · rw [ht, remove_same, ho]
    · rw [remove_other _ ht]
      by_cases ht' : t = CKA_IBM_OPAQUE_REENC
      · rw [ht', remove_same, hr]
      · exact remove_other m ht'

/-- What finalize makes of the three blobs after re-encipher, if it succeeds: all is well exactly
if the blob was not a new one already, or nothing is to be moved. -/
theorem finalize_reencipher_iff (isBlobNewMk : List UInt8 → Bool) {m : AttrMap} {keyType : Nat}
    {blob reenc : List UInt8}
    (hk : (m.update CKA_IBM_OPAQUE_REENC reenc).keyType order = some keyType)
    (hb : m CKA_IBM_OPAQUE = some blob) :
    ((finalizeView order isBlobNewMk (m.update CKA_IBM_OPAQUE_REENC reenc)).2 CKA_IBM_OPAQUE =
          some reenc ∧
        (finalizeView order isBlobNewMk (m.update CKA_IBM_OPAQUE_REENC reenc)).2
          CKA_IBM_OPAQUE_OLD = some blob) ↔
      (isBlobNewMk (checkedPart (keyType = CKK_AES_XTS) blob) = true →
        reenc = blob ∧ m CKA_IBM_OPAQUE_OLD = some blob) := by
  obtain ⟨h₁, h₂, h₃, -⟩ := opaque_types
  have hr : m.update CKA_IBM_OPAQUE_REENC reenc CKA_IBM_OPAQUE_REENC = some reenc :=
    update_same m _ _
  have hb' : m.update CKA_IBM_OPAQUE_REENC reenc CKA_IBM_OPAQUE = some blob := by
    rw [update_other _ _ h₁, hb]
  cases hnew : isBlobNewMk (checkedPart (keyType = CKK_AES_XTS) blob) with
  | true =>
    rw [finalizeView_new hk hr hb' hnew, remove_update]
    simp only [forall_const, remove_other _ h₁, remove_other _ h₃.symm, hb, Option.some.injEq,
      eq_comm]
  | false =>
    rw [finalizeView_old hk hr hb' hnew]
    dsimp only
    refine iff_of_true ⟨?_, ?_⟩ nofun
    · rw [remove_other _ h₁, update_same]
    · rw [remove_other _ h₃.symm, update_other _ _ h₂.symm, update_same]

/-- A re-encipher function that changes every byte. -/
def nextBytes : Reenc where
  f blob := .ok (blob.map (· + 1))
  length_eq := by
    intro blob blob' h
    cases h
    exact List.length_map _

/-- A session key of a type with a blob of two bytes. -/
def sessionKey (keyType : UInt8) : SecureKey where
  isToken := false
  tmpl := (AttrMap.update (fun _ => none) CKA_KEY_TYPE [keyType, 0, 0, 0, 0, 0, 0, 0]).update
    CKA_IBM_OPAQUE [1, 2]
  count := ⟨0, 0⟩
  stored := fun _ => none
  entryCount := ⟨0, 0⟩
  removed := false

end OpenCryptoki.Proofs.Common
