import OpenCryptoki.Common.OpState

/-!
# `OpenCryptoki.Proofs.Common.OpStateWalks`: the two walks over a blob

`session_mgr_set_op_state` walks over the blob twice. The first walk checks the records
(`RecordAt`) and counts the keys that they need. The second walk makes the same checks again
(`restoreRecord_eq`) and copies the operations into the session.

The lemmas say what one round of a walk does with a record, and that a walk which ends does not
depend on the fuel (`validate_mono`, `restore_mono`). For a record whose parts lie inside the blob
(`RecordInside`), `ctxAt` is the context that the second walk stores.
-/

set_option autoImplicit false

namespace OpenCryptoki.Proofs.Common

open Lib OpenCryptoki.Common

/-! ### Reads of the blob -/

/-- The `CK_ULONG` at an offset of the blob. -/
def wordAt (env : OpEnv) (data : List UInt8) (off : Nat) : Nat :=
  wordValue env.order ((data.drop off).take 8)

section
variable {env : OpEnv} {data : List UInt8} {off : Nat}

/-- A word that lies inside the blob is read. -/
theorem readWord_of_le (h : off + 8 ≤ data.length) :
    readWord env data off = .ok (wordAt env data off) := by
  rw [readWord, readAt_eq_some h]
  rfl

end

/-- The end of the lengths in a context. They are the only members that the first walk reads. -/
def lensEnd : OpKind → Nat
  | .encr | .decr   => 48
  | .digest         => 40
  | .sign | .verify => 88

/-- The lengths of the context at `ctx`. -/
def lensAt (env : OpEnv) (data : List UInt8) (k : OpKind) (ctx : Nat) : CtxLens where
  contextLen := wordAt env data (ctx + k.mechOffset + 32)
  ulParameterLen := wordAt env data (ctx + k.mechOffset + 16)
  savedSignatureLen := if k.isSignVerify then wordAt env data (ctx + 80) else 0

section
variable {env : OpEnv} {data : List UInt8} {k : OpKind} {ctx : Nat}

/-- The lengths of a context that lies inside the blob are read. -/
theorem readLens_of_le (h : ctx + lensEnd k ≤ data.length) :
    readLens env data k ctx = .ok (lensAt env data k ctx) := by
  have hmech : k.mechOffset + 40 ≤ lensEnd k := by cases k <;> decide
  have hsignature : readSignatureWord env data k (ctx + 80) =
      .ok (lensAt env data k ctx).savedSignatureLen := by
    cases k with
    | encr | decr | digest => rfl
    | sign | verify => exact readWord_of_le h
  rw [readLens, readWord_of_le (by omega), readWord_of_le (by omega), hsignature]
  rfl

end

/-! ### One record of the first walk -/

section Record
variable (env : OpEnv) (state : Nat) (data : List UInt8)

/-- The identity of a header is that of the library, the token and the session. -/
def HeaderMatches (cur : Nat) : Prop :=
  strncmpEq LIBRARY_VERSION_LEN ((data.drop cur).take LIBRARY_VERSION_LEN) env.packageVersion ∧
    (data.drop (cur + 16)).take MANUFACTURER_ID_LEN = env.manufacturerID ∧
    (data.drop (cur + 48)).take MODEL_LEN = env.model ∧
    state = wordAt env data (cur + 64)

/-- There is a record at `cur` that the first walk accepts. -/
def RecordAt (cur : Nat) (r : RecordHead) : Prop :=
  cur + SIZEOF_OP_STATE_DATA ≤ data.length ∧
    validateRecord env state data cur (data.length - cur) = .ok r

variable {env state data} {cur : Nat}

section
variable (hroom : cur + SIZEOF_OP_STATE_DATA ≤ data.length)
include hroom

/-- A header of another library, token or session state is refused. -/
theorem checkHeader_of_not (h : ¬ HeaderMatches env state data cur) :
    checkHeader env state data cur = .error (.rc .savedStateInvalid) := by
  rw [SIZEOF_OP_STATE_DATA] at hroom
  rw [checkHeader, readAt_eq_some (by rw [LIBRARY_VERSION_LEN]; omega),
    readAt_eq_some (by rw [MANUFACTURER_ID_LEN]; omega),
    readAt_eq_some (by unfold MODEL_LEN; omega), readWord_of_le (by omega), access_bind, check]
  split
  · next hversion =>
    rw [ok_bind, access_bind, check]
    split
    · next hmanufacturer =>
      rw [ok_bind, access_bind, check]
      split
      · next hmodel =>
        rw [ok_bind, ok_bind, check_of_not]
        exact fun hstate => h ⟨hversion, hmanufacturer, hmodel, hstate⟩
      · rfl
    · rfl
  · rfl

/-- The header that is accepted. -/
theorem checkHeader_eq_ok :
    checkHeader env state data cur = .ok () ↔ HeaderMatches env state data cur := by
  rw [SIZEOF_OP_STATE_DATA] at hroom
  rw [checkHeader, readAt_eq_some (by rw [LIBRARY_VERSION_LEN]; omega),
    readAt_eq_some (by rw [MANUFACTURER_ID_LEN]; omega),
    readAt_eq_some (by unfold MODEL_LEN; omega), readWord_of_le (by omega), access_bind,
    check_bind_eq_ok, access_bind, check_bind_eq_ok, access_bind, check_bind_eq_ok, ok_bind,
    check_eq_ok]
  rfl

/-- `data_len` is taken if the record fits into the rest of the blob, with the sum mod `2 ^ 64`. -/
theorem readDataLen_eq (curDataLen : Nat) :
    readDataLen env data cur curDataLen =
      if ulongAdd (wordAt env data (cur + 80)) SIZEOF_OP_STATE_DATA ≤ curDataLen then
        .ok (wordAt env data (cur + 80))
      else .error (.rc .savedStateInvalid) := by
  rw [SIZEOF_OP_STATE_DATA] at hroom
  rw [readDataLen, readWord_of_le (by omega), ok_bind, check]
  split <;> rfl

end

/-- What the first walk has found out about a record that it accepts. -/
theorem RecordAt.head {r : RecordHead} (h : RecordAt env state data cur r) :
    readDataLen env data cur (data.length - cur) = .ok r.dataLen ∧
      readBody env data cur r.dataLen = .ok r := by
  obtain ⟨dataLen, hlen, hrest⟩ := bind_eq_ok.mp h.2
  obtain ⟨_, _, hbody⟩ := bind_eq_ok.mp hrest
  have hdataLen : r.dataLen = dataLen := by
    obtain ⟨code, -, hcode⟩ := bind_eq_ok.mp hbody
    split at hcode
    · cases hcode
    · obtain ⟨lens, -, hlens⟩ := bind_eq_ok.mp hcode
      obtain ⟨_, hr⟩ := check_bind_eq_ok.mp hlens
      cases hr
      rfl
  rw [hdataLen]
  exact ⟨hlen, hbody⟩

end Record

/-! ### The first walk -/

section Walk
variable {env : OpEnv} {state : Nat} {data : List UInt8}

section
variable {fuel cur : Nat} {needed : KeysNeeded} {r : RecordHead}

/-- A record that is accepted is counted, and the walk goes on behind it. -/
theorem validate_of_record (hr : RecordAt env state data cur r) :
    validate env state data (fuel + 1) cur needed =
      validate env state data fuel (cur + r.advance) (needed.count r.kind) := by
  have hroom : SIZEOF_OP_STATE_DATA ≤ data.length - cur := by
    have := hr.1
    omega
  rw [validate, if_pos hroom, hr.2]

/-- A record that is not accepted ends the walk. -/
theorem validate_of_error {stop : Stop} (hroom : cur + SIZEOF_OP_STATE_DATA ≤ data.length)
    (h : validateRecord env state data cur (data.length - cur) = .error stop) :
    validate env state data (fuel + 1) cur needed = some (.error stop) := by
  rw [validate, if_pos (by omega), h]

/-- Where no header fits any more, the walk ends; it fails if bytes are left over. -/
theorem validate_of_short (hshort : ¬ cur + SIZEOF_OP_STATE_DATA ≤ data.length) :
    validate env state data (fuel + 1) cur needed =
      if cur < data.length then some (.error (.rc .savedStateInvalid)) else some (.ok needed) := by
  have hpos : 0 < SIZEOF_OP_STATE_DATA := by decide
  rw [validate, if_neg (by omega)]
  simp only [Nat.sub_pos_iff_lt]

/-- What the first walk finds at an offset: a record, a record that it does not accept, or no
room for a record. -/
theorem record_cases (env : OpEnv) (state : Nat) (data : List UInt8) (cur : Nat) :
    (∃ r, RecordAt env state data cur r) ∨ (cur + SIZEOF_OP_STATE_DATA ≤ data.length ∧
        ∃ stop, validateRecord env state data cur (data.length - cur) = .error stop) ∨
      ¬ cur + SIZEOF_OP_STATE_DATA ≤ data.length := by
  by_cases hroom : cur + SIZEOF_OP_STATE_DATA ≤ data.length
  · cases h : validateRecord env state data cur (data.length - cur) with
    | ok r => exact .inl ⟨r, hroom, h⟩
    | error stop => exact .inr (.inl ⟨hroom, stop, rfl⟩)
  · exact .inr (.inr hroom)

variable {x : Except Stop KeysNeeded}

/-- More fuel does not change the outcome. -/
theorem validate_mono {fuel' : Nat} (hle : fuel ≤ fuel')
    (h : validate env state data fuel cur needed = some x) :
    validate env state data fuel' cur needed = some x := by
  induction fuel generalizing fuel' cur needed with
  | zero => cases h
  | succ fuel ih =>
    obtain ⟨n, rfl⟩ := Nat.exists_eq_add_of_lt hle
    obtain ⟨r, hr⟩ | ⟨hroom, stop, hstop⟩ | hshort := record_cases env state data cur
    · rw [validate_of_record hr] at h ⊢
      exact ih (le_self_add) h
    · rw [validate_of_error hroom hstop] at h ⊢
      exact h
    · rw [validate_of_short hshort] at h ⊢
      exact h

end

/-! ### The keys -/

section
variable {needed : KeysNeeded} {keys : OpKeys}

/-- The caller gives exactly the keys that the records need. -/
theorem checkKeys_eq_ok :
    checkKeys needed keys = .ok () ↔ (0 < needed.encr ↔ keys.encrKey ≠ CK_INVALID_HANDLE) ∧
        (0 < needed.auth ↔ keys.authKey ≠ CK_INVALID_HANDLE) := by
  rw [checkKeys, check_bind_eq_ok, check_bind_eq_ok, check_bind_eq_ok, check_eq_ok]
  have hiff (n key : Nat) : ((0 < n → key ≠ CK_INVALID_HANDLE) ∧
      (n = 0 → key = CK_INVALID_HANDLE)) ↔ (0 < n ↔ key ≠ CK_INVALID_HANDLE) := by
    rw [CK_INVALID_HANDLE]
    omega
  rw [← hiff, ← hiff, and_assoc]

/-- The key checks read no memory. -/
theorem checkKeys_ne_fault : checkKeys needed keys ≠ .error .fault := by
  have hsafe : Safe (checkKeys needed keys) fun _ => True :=
    (Safe.check _).bind fun _ _ => (Safe.check _).bind fun _ _ => (Safe.check _).bind fun _ _ =>
      (Safe.check _).mono fun _ _ => trivial
  exact hsafe.ne_fault

/-- A refusal because of the keys is an error. -/
theorem checkKeys_ne_ok : checkKeys needed keys ≠ .error (.rc .ok) := by
  refine bind_ne_error_iff.mpr ⟨check_ne_rc nofun, fun _ _ => ?_⟩
  refine bind_ne_error_iff.mpr ⟨check_ne_rc nofun, fun _ _ => ?_⟩
  refine bind_ne_error_iff.mpr ⟨check_ne_rc nofun, fun _ _ => ?_⟩
  exact check_ne_rc nofun

end

end Walk

/-! ### One record of the second walk -/

/-- The copy of `n` bytes of the blob, without the accesses. -/
def copiedAt (data : List UInt8) (off n : Nat) : CtxPtr :=
  if n = 0 then .null else .heap ((data.drop off).take n)

/-- A range that is copied lies inside the blob. -/
def Inside (data : List UInt8) (off n : Nat) : Prop := n = 0 ∨ off + n ≤ data.length

section Copy
variable {data : List UInt8} {off n : Nat}

/-- A range inside the blob is copied when `malloc` succeeds. -/
theorem copyOut_true (h : Inside data off n) :
    copyOut true data off n = .ok (copiedAt data off n) := by
  rw [copyOut, copiedAt]
  split
  · rfl
  · next hn =>
    rw [if_pos rfl, readAt_eq_some (h.resolve_left hn)]
    rfl

end Copy

/-- The saved signature that a record takes along: that of a verify operation. -/
def signatureLen (r : RecordHead) : Nat :=
  if r.kind = .verify then r.lens.savedSignatureLen else 0

/-- The copy of the signature is a copy of `signatureLen` bytes. -/
theorem copySignature_eq (mallocOk : Bool) (data : List UInt8) (off : Nat) (r : RecordHead) :
    copySignature mallocOk data r.kind off r.lens.savedSignatureLen =
      copyOut mallocOk data off (signatureLen r) := by
  rw [copySignature, signatureLen]
  split <;> rfl

/-- Where the context of the record at `cur` is. -/
def ctxOffset (cur : Nat) : Nat := cur + SIZEOF_OP_STATE_DATA

/-- The context bytes of a record follow its context. -/
def contextOffset (r : RecordHead) (cur : Nat) : Nat :=
  ctxOffset cur + r.kind.sizeofCtx

/-- The mechanism parameter follows the context bytes. -/
def paramOffset (r : RecordHead) (cur : Nat) : Nat :=
  contextOffset r cur + r.lens.contextLen

/-- The saved signature follows the mechanism parameter. -/
def signatureOffset (r : RecordHead) (cur : Nat) : Nat :=
  paramOffset r cur + r.lens.ulParameterLen

/-- The context of a record and all that is copied from it lie inside the blob. -/
structure RecordInside (data : List UInt8) (cur : Nat) (r : RecordHead) : Prop where
  ctx : ctxOffset cur + r.kind.sizeofCtx ≤ data.length
  context : Inside data (contextOffset r cur) r.lens.contextLen
  mechParam : Inside data (paramOffset r cur) r.lens.ulParameterLen
  signature : Inside data (signatureOffset r cur) (signatureLen r)

/-- The context that the second walk builds from a record, without the accesses. -/
def ctxAt (env : OpEnv) (keys : OpKeys) (data : List UInt8) (cur : Nat) (r : RecordHead) : OpCtx :=
  let image := (data.drop (ctxOffset cur)).take r.kind.sizeofCtx
  let address := if r.kind.isSignVerify then wordAt env image 72 else 0
  { key := if r.kind = .digest then 0 else keys.of r.kind
    mechanism := wordAt env image r.kind.mechOffset
    pParameter := copiedAt data (paramOffset r cur) r.lens.ulParameterLen
    ulParameterLen := r.lens.ulParameterLen
    context := copiedAt data (contextOffset r cur) r.lens.contextLen
    contextLen := r.lens.contextLen
    contextFreeFunc := wordAt env image (r.kind.mechOffset + 40)
    flags := (image.drop (r.kind.mechOffset + 48)).take r.kind.flagCount
    savedSignature := match r.kind with
      | .sign                     => if address = 0 then .null else .wild address
      | .verify                   => copiedAt data (signatureOffset r cur) (signatureLen r)
      | .encr | .decr | .digest   => .null
    savedSignatureLen := r.lens.savedSignatureLen }

section Restore
variable {env : OpEnv} {keys : OpKeys} {data : List UInt8} {state cur : Nat} {r : RecordHead}
  {malloc : Malloc} {s : OpSession}

/-- The part of the second walk behind the checks. -/
def copyRecord (env : OpEnv) (malloc : Malloc) (keys : OpKeys) (data : List UInt8) (cur : Nat)
    (r : RecordHead) (s : OpSession) : Except Stop (RecordHead × OpSession) := do
  let context ← copyOut (malloc cur .context) data (contextOffset r cur) r.lens.contextLen
  let mechParam ← copyOut (malloc cur .mechParam) data (paramOffset r cur) r.lens.ulParameterLen
  let savedSignature ←
    copyOut (malloc cur .savedSignature) data (signatureOffset r cur) (signatureLen r)
  let c ← readCtx env data r.kind r.lens (keys.of r.kind) (ctxOffset cur) context mechParam
    savedSignature
  return (r, s.store r.kind c)

/-- The second walk makes the same checks on a record as the first one. -/
theorem restoreRecord_eq (malloc : Malloc) (s : OpSession) (hr : RecordAt env state data cur r)
    (hkey : r.kind ≠ .digest → keys.of r.kind ≠ CK_INVALID_HANDLE) :
    restoreRecord env malloc keys data cur (data.length - cur) s =
      copyRecord env malloc keys data cur r s := by
  obtain ⟨hlen, hbody⟩ := hr.head
  rw [restoreRecord, hlen, ok_bind, hbody, ok_bind, check_bind hkey]
  simp only [copySignature_eq]
  rfl

/-- The context of a record inside the blob is read as it is (`ctxAt`). -/
theorem readCtx_of_inside (h : RecordInside data cur r) :
    readCtx env data r.kind r.lens (keys.of r.kind) (ctxOffset cur)
        (copiedAt data (contextOffset r cur) r.lens.contextLen)
        (copiedAt data (paramOffset r cur) r.lens.ulParameterLen)
        (copiedAt data (signatureOffset r cur) (signatureLen r)) =
      .ok (ctxAt env keys data cur r) := by
  have hctx := h.ctx
  have hlength : ((data.drop (ctxOffset cur)).take r.kind.sizeofCtx).length = r.kind.sizeofCtx := by
    rw [List.length_take, List.length_drop]
    omega
  have hmech : r.kind.mechOffset + 56 ≤ r.kind.sizeofCtx ∧
      r.kind.mechOffset + 48 + r.kind.flagCount ≤ r.kind.sizeofCtx := by
    cases r.kind <;> decide
  have haddress : readSignatureWord env ((data.drop (ctxOffset cur)).take r.kind.sizeofCtx)
      r.kind 72 = .ok (if r.kind.isSignVerify then
        wordAt env ((data.drop (ctxOffset cur)).take r.kind.sizeofCtx) 72 else 0) := by
    rw [readSignatureWord]
    split
    · next hsign =>
      refine readWord_of_le ?_
      rw [hlength]
      cases hk : r.kind <;> rw [hk] at hsign <;> first | exact absurd hsign (by decide) | decide
    · rfl
  rw [readCtx, readAt_eq_some hctx, access_bind, readWord_of_le (by omega), ok_bind,
    readWord_of_le (by omega), ok_bind, readAt_eq_some (by omega), access_bind, haddress, ok_bind]
  rfl

/-- A record inside the blob is stored when `malloc` succeeds. -/
theorem copyRecord_of_malloc (h : RecordInside data cur r) (hmalloc : ∀ site, malloc cur site) :
    copyRecord env malloc keys data cur r s =
      .ok (r, s.store r.kind (ctxAt env keys data cur r)) := by
  rw [copyRecord, hmalloc, hmalloc, hmalloc, copyOut_true h.context, ok_bind,
    copyOut_true h.mechParam, ok_bind, copyOut_true h.signature, ok_bind, readCtx_of_inside h]
  rfl

end Restore

/-! ### The second walk -/

section Run
variable {env : OpEnv} {keys : OpKeys} {data : List UInt8} {s t : OpSession} {malloc : Malloc}
  {fuel cur : Nat} {r : RecordHead}

/-- A record that the second walk takes is stored, and the walk goes on behind it. -/
theorem restore_of_record {t' : OpSession} (hr : RecordAt env s.state data cur r)
    (h : restoreRecord env malloc keys data cur (data.length - cur) t = .ok (r, t')) :
    restore env malloc keys data (fuel + 1) cur t =
      restore env malloc keys data fuel (cur + r.advance) t' := by
  have hroom := hr.1
  rw [restore, if_pos (by omega), h]

/-- At the end of the blob the second walk ends. -/
theorem restore_of_end : restore env malloc keys data (fuel + 1) data.length t =
    some (.ret .ok t) := by
  rw [restore, Nat.sub_self, if_neg (by decide)]

variable {x : SetResult} {needed : KeysNeeded}

/-- More fuel does not change the outcome. -/
theorem restore_mono {fuel' : Nat} (hle : fuel ≤ fuel')
    (h : restore env malloc keys data fuel cur t = some x) :
    restore env malloc keys data fuel' cur t = some x := by
  induction fuel generalizing fuel' cur t with
  | zero => cases h
  | succ fuel ih =>
    obtain ⟨n, rfl⟩ := Nat.exists_eq_add_of_lt hle
    rw [restore] at h ⊢
    split at h
    · next hroom =>
      rw [if_pos hroom]
      split at h
      · exact h
      · exact h
      · exact ih (le_self_add) h
    · next hroom =>
      rw [if_neg hroom]
      exact h

/-- A blob that the first walk accepts, with its keys, is restored into the cleaned-up session. -/
theorem sessionMgrSetOpState_of_ok
    (hvalidate : validate env s.state data fuel 0 ⟨0, 0⟩ = some (.ok needed))
    (hkeys : checkKeys needed keys = .ok ()) :
    sessionMgrSetOpState env malloc s keys data fuel =
      restore env malloc keys data fuel 0 s.cleanup := by
  rw [sessionMgrSetOpState, hvalidate]
  dsimp only
  rw [hkeys]

end Run

/-- A token with an empty version text. -/
def emptyEnv : OpEnv where
  order := .little
  packageVersion := []
  manufacturerID := List.replicate 32 0
  model := List.replicate 16 0
  addr _ := 0
  addr_null := rfl
  packageVersion_ne_zero := nofun
  length_manufacturerID := rfl
  length_model := rfl

/-- The context of an operation that has not been initialised. -/
def idleCtx : OpCtx := ⟨0, 0, .null, 0, .null, 0, 0, [], .null, 0⟩

/-- A session without operations. -/
def idleSession : OpSession := ⟨0, false, fun _ => idleCtx⟩

end OpenCryptoki.Proofs.Common
