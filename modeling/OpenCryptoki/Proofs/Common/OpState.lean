import OpenCryptoki.Proofs.Common.OpStateWalks

/-!
# `OpenCryptoki.Proofs.Common.OpState`: the saved operations come back

`op_state_round_trip`: for a session whose operations can be saved, the blob has the length that
the length query reports. `session_mgr_set_op_state` takes the blob back in a session that is in
the same session state, with the keys that the saved operations need, and nowhere else. Then every
saved operation is in its slot again and every other slot is inactive.

`sessionMgrGetOpState_length` and `sessionMgrGetOpState_write` compute the blob (`blobOf`), the
row of the records of the active operations. `SaveableCtx.recordAt` says that the first walk accepts
such a record, and `SaveableCtx.restoredAs` that the second walk restores the context.
-/

set_option autoImplicit false

namespace OpenCryptoki.Proofs.Common

open Lib OpenCryptoki.Common List

/-! ### Operations that can be saved -/

/-- The pointer and the length describe these bytes. -/
def PtrHolds (p : CtxPtr) (n : Nat) (bytes : List UInt8) : Prop :=
  (p = .heap bytes ∨ p = .null ∧ bytes = []) ∧ n = bytes.length

/-- The bytes of an operation. -/
structure CtxBytes where
  context : List UInt8
  mechParam : List UInt8
  savedSignature : List UInt8

/-- A context that can be saved, with its bytes. A sign operation has no saved signature. -/
structure SaveableCtx (k : OpKind) (c : OpCtx) (b : CtxBytes) : Prop where
  saveable : c.stateUnsaveable k = 0
  context : PtrHolds c.context c.contextLen b.context
  mechParam : PtrHolds c.pParameter c.ulParameterLen b.mechParam
  savedSignature : k.isSignVerify → PtrHolds c.savedSignature c.savedSignatureLen b.savedSignature
  no_signature : k ≠ .verify → b.savedSignature = []
  sign_null : k = .sign → c.savedSignature = .null
  length_flags : c.flags.length = k.flagCount
  key_lt : c.key < 2 ^ 64
  mechanism_lt : c.mechanism < 2 ^ 64
  contextFreeFunc_lt : c.contextFreeFunc < 2 ^ 64

/-- What follows the header in a record. -/
def bodyOf (env : OpEnv) (k : OpKind) (c : OpCtx) (b : CtxBytes) : List UInt8 :=
  ctxImage env k c ++ (b.context ++ (b.mechParam ++ b.savedSignature))

/-- The record of an operation. -/
def recordOf (env : OpEnv) (state : Nat) (k : OpKind) (c : OpCtx) (b : CtxBytes) : List UInt8 :=
  opStateData env state k (bodyOf env k c b).length ++ bodyOf env k c b

section Layout
variable {env : OpEnv} {k : OpKind} {c : OpCtx} {b : CtxBytes} {state : Nat}

/-- A word has 8 bytes. -/
@[simp] theorem length_word (v : Nat) : (env.word v).length = 8 := length_wordBytes _ _ _

/-- `strncpy` fills its field. -/
theorem length_strncpy (n : Nat) (s : List UInt8) : (strncpy n s).length = n := by
  rw [strncpy, length_take, length_append, length_replicate]
  omega

/-- The header of a record has its fixed length. -/
theorem length_opStateData (n : Nat) :
    (opStateData env state k n).length = SIZEOF_OP_STATE_DATA := by
  simp only [opStateData, length_append, length_strncpy, env.length_manufacturerID,
    env.length_model, length_word]
  rfl

section
variable (h : SaveableCtx k c b)
include h

/-- The image of a context has the size of the structure. -/
theorem SaveableCtx.length_image : (ctxImage env k c).length = k.sizeofCtx := by
  have hflags := h.length_flags
  cases k <;> simp [ctxImage, hflags, OpKind.flagCount, OpKind.sizeofCtx]

/-- A context, and the three buffers that it points to. -/
theorem SaveableCtx.length_body :
    (bodyOf env k c b).length =
      k.sizeofCtx + b.context.length + b.mechParam.length + b.savedSignature.length := by
  simp only [bodyOf, length_append, h.length_image]
  omega

/-- A header in front of that. -/
theorem SaveableCtx.length_record :
    (recordOf env state k c b).length = SIZEOF_OP_STATE_DATA +
      (k.sizeofCtx + b.context.length + b.mechParam.length + b.savedSignature.length) := by
  rw [recordOf, length_append, length_opStateData, h.length_body]

/-- The length of the saved signature, which only a verification has. -/
theorem SaveableCtx.recordSignatureLen : c.recordSignatureLen k = b.savedSignature.length := by
  rw [OpCtx.recordSignatureLen]
  split
  · next hk => exact (h.savedSignature (by rw [hk]; rfl)).2
  · next hk => rw [h.no_signature hk, length_nil]

/-- `op_data_len` of an operation that fits into the memory. -/
theorem SaveableCtx.opDataLen_eq (env : OpEnv) (state : Nat)
    (hlt : (recordOf env state k c b).length < 2 ^ 64) :
    opDataLen k c = (recordOf env state k c b).length := by
  rw [h.length_record] at hlt ⊢
  rw [opDataLen, h.recordSignatureLen, h.context.2, h.mechParam.2]
  simp only [ulongAdd]
  omega

end

/-- The bytes that a pointer describes can be read. -/
theorem readPtr_of_holds {p : CtxPtr} {n : Nat} {bytes : List UInt8} (h : PtrHolds p n bytes) :
    readPtr p n = .ok bytes := by
  obtain ⟨hp, rfl⟩ := h
  unfold readPtr
  split
  · next hn => rw [eq_nil_of_length_eq_zero hn]
  · next hn =>
    obtain rfl | ⟨-, rfl⟩ := hp
    · dsimp only
      rw [(at_self bytes).readAt]
      rfl
    · exact absurd rfl hn

/-- The record of an operation that can be saved. -/
theorem SaveableCtx.opRecord_eq (h : SaveableCtx k c b) (env : OpEnv) (state : Nat)
    (hlt : (recordOf env state k c b).length < 2 ^ 64) :
    opRecord env state k c = .ok (recordOf env state k c b) := by
  have hsignature : readPtr c.savedSignature (c.recordSignatureLen k) = .ok b.savedSignature := by
    by_cases hk : k = .verify
    · have hholds := h.savedSignature (by rw [hk]; rfl)
      rw [h.recordSignatureLen, ← hholds.2]
      exact readPtr_of_holds hholds
    · rw [h.recordSignatureLen, h.no_signature hk]
      rfl
  have hlen : ulongSub (opDataLen k c) SIZEOF_OP_STATE_DATA = (bodyOf env k c b).length := by
    rw [h.opDataLen_eq env state hlt]
    rw [h.length_record] at hlt ⊢
    rw [h.length_body, ulongSub]
    omega
  rw [opRecord, readPtr_of_holds h.context, ok_bind, readPtr_of_holds h.mechParam, ok_bind,
    hsignature, ok_bind, hlen]
  rfl

end Layout

/-! ### The blob -/

/-- The session can be saved: no search is active, some operation is active, and the active
operations can be saved and fit into the memory together. -/
structure Saveable (env : OpEnv) (s : OpSession) (b : OpKind → CtxBytes) : Prop where
  find : s.findActive = false
  active : ∃ k, (s.ctx k).active k = TRUE
  ctx : ∀ k, (s.ctx k).active k = TRUE → SaveableCtx k (s.ctx k) (b k)
  state_lt : s.state < 2 ^ 64
  length_lt : ((OpKind.all.filter fun k => (s.ctx k).active k = TRUE).flatMap fun k =>
    recordOf env s.state k (s.ctx k) (b k)).length < 2 ^ 64

section Save
variable (env : OpEnv) (s : OpSession) (b : OpKind → CtxBytes)

/-- The operations of a list that are saved. -/
def savedOps (ks : List OpKind) : List OpKind := ks.filter fun k => (s.ctx k).active k = TRUE

/-- The records of the active operations. -/
def blobOf (ks : List OpKind) : List UInt8 :=
  (savedOps s ks).flatMap fun k => recordOf env s.state k (s.ctx k) (b k)

variable {env s b} {k : OpKind} {ks : List OpKind}

/-- An active operation is saved. -/
theorem savedOps_cons_of_active (hk : (s.ctx k).active k = TRUE) :
    savedOps s (k :: ks) = k :: savedOps s ks :=
  filter_cons_of_pos (decide_eq_true hk)

/-- An inactive operation is not saved. -/
theorem savedOps_cons_of_not (hk : (s.ctx k).active k ≠ TRUE) :
    savedOps s (k :: ks) = savedOps s ks :=
  filter_cons_of_neg (by rw [decide_eq_true_eq]; exact hk)

/-- The record of an active operation comes before the others. -/
theorem blobOf_cons_of_active (hk : (s.ctx k).active k = TRUE) :
    blobOf env s b (k :: ks) = recordOf env s.state k (s.ctx k) (b k) ++ blobOf env s b ks := by
  rw [blobOf, savedOps_cons_of_active hk, flatMap_cons]
  rfl

/-- An inactive operation has no record. -/
theorem blobOf_cons_of_not (hk : (s.ctx k).active k ≠ TRUE) :
    blobOf env s b (k :: ks) = blobOf env s b ks := by
  rw [blobOf, savedOps_cons_of_not hk]
  rfl

/-- One record is written to the free part of the buffer. -/
theorem writeRecord_eq (st : SaveState) {front back record : List UInt8}
    (h : opRecord env s.state k (s.ctx k) = .ok record)
    (hlen : opDataLen k (s.ctx k) = record.length) (hbuf : st.buf = front ++ back)
    (hdata : st.data = front.length) (hmax : st.maxDataLen = back.length)
    (hroom : record.length ≤ back.length) :
    writeRecord env s.state st k (s.ctx k) = .ok { st with
      buf := (front ++ record) ++ back.drop record.length
      data := (front ++ record).length
      maxDataLen := (back.drop record.length).length } := by
  have hsplit : st.buf = front ++ (back.take record.length ++ back.drop record.length) := by
    rw [hbuf, take_append_drop]
  rw [writeRecord, hlen, check_bind (by omega), h, ok_bind,
    writeAt_of_eq front _ _ hsplit hdata (by rw [length_take]; omega), hdata, hmax,
    append_assoc, length_append, length_drop]
  rfl

variable (hctx : ∀ k, (s.ctx k).active k = TRUE → SaveableCtx k (s.ctx k) (b k))
include hctx

/-- An active operation is counted with the length of its record. -/
theorem count_eq (env : OpEnv) (st : SaveState) (hk : (s.ctx k).active k = TRUE)
    (hlt : st.allDataLen + (recordOf env s.state k (s.ctx k) (b k)).length < 2 ^ 64) :
    st.count k (s.ctx k) = { st with
      activeOps := st.activeOps + 1
      allDataLen := st.allDataLen + (recordOf env s.state k (s.ctx k) (b k)).length } := by
  have hlen := (hctx k hk).opDataLen_eq env s.state (by omega)
  rw [SaveState.count, hlen, ulongAdd, Nat.mod_eq_of_lt hlt]

/-- The length query adds up the lengths of the records. -/
theorem saveOp_length {st : SaveState}
    (hlt : st.allDataLen + (blobOf env s b ks).length < 2 ^ 64) :
    ks.foldlM (saveOp env s true) st = .ok { st with
      allDataLen := st.allDataLen + (blobOf env s b ks).length
      activeOps := st.activeOps + (savedOps s ks).length } := by
  induction ks generalizing st with
  | nil => rfl
  | cons k ks ih =>
    rw [foldlM_cons, saveOp]
    by_cases hk : (s.ctx k).active k = TRUE
    · rw [blobOf_cons_of_active hk, length_append, ← add_assoc] at hlt
      rw [if_pos hk, if_neg (not_not.mpr (hctx k hk).saveable), if_pos rfl, ok_bind,
        count_eq hctx env st hk (lt_of_le_of_lt (le_self_add) hlt), ih hlt,
        blobOf_cons_of_active hk, savedOps_cons_of_active hk, length_append, length_cons,
        add_assoc, add_assoc, add_comm 1]
    · rw [blobOf_cons_of_not hk] at hlt
      rw [if_neg hk, ok_bind, blobOf_cons_of_not hk, savedOps_cons_of_not hk]
      exact ih hlt

/-- The records are written one behind the other. -/
theorem saveOp_write (st : SaveState) (front back : List UInt8)
    (hlt : st.allDataLen + (blobOf env s b ks).length < 2 ^ 64)
    (hbuf : st.buf = front ++ back) (hdata : st.data = front.length)
    (hmax : st.maxDataLen = back.length) (hroom : (blobOf env s b ks).length ≤ back.length) :
    ∃ st', ks.foldlM (saveOp env s false) st = .ok st' ∧
      st'.buf = front ++ (blobOf env s b ks ++ back.drop (blobOf env s b ks).length) ∧
      st'.allDataLen = st.allDataLen + (blobOf env s b ks).length ∧
      st'.activeOps = st.activeOps + (savedOps s ks).length := by
  induction ks generalizing st front back with
  | nil => exact ⟨st, rfl, hbuf, rfl, rfl⟩
  | cons k ks ih =>
    rw [foldlM_cons, saveOp]
    by_cases hk : (s.ctx k).active k = TRUE
    · have h := hctx k hk
      rw [blobOf_cons_of_active hk, length_append] at hlt hroom
      have hlen := h.opDataLen_eq env s.state (by omega)
      have hrecord := h.opRecord_eq env s.state (by omega)
      have hcount := count_eq hctx env st hk (by omega)
      rw [blobOf_cons_of_active hk, savedOps_cons_of_active hk]
      generalize recordOf env s.state k (s.ctx k) (b k) = record at *
      have hle : record.length ≤ back.length := by omega
      have hwrite := writeRecord_eq (st.count k (s.ctx k)) hrecord hlen hbuf hdata hmax hle
      rw [if_pos hk, if_neg (not_not.mpr h.saveable), if_neg Bool.false_ne_true, hwrite, ok_bind,
        hcount]
      -- the rest is written behind this record
      obtain ⟨st', hst', hbuf', hall', hops'⟩ :=
        ih ⟨(front ++ record) ++ back.drop record.length, (front ++ record).length,
          (back.drop record.length).length, st.allDataLen + record.length, st.activeOps + 1⟩
          (front ++ record) (back.drop record.length) (by dsimp only; omega) rfl rfl rfl
          (by rw [length_drop]; omega)
      dsimp only at hall' hops'
      refine ⟨st', hst', ?_, ?_, ?_⟩
      · rw [hbuf', drop_drop, length_append, append_assoc, append_assoc]
      · rw [hall', length_append, add_assoc]
      · rw [hops', length_cons]
        omega
    · rw [blobOf_cons_of_not hk] at hlt hroom
      rw [if_neg hk, ok_bind, blobOf_cons_of_not hk, savedOps_cons_of_not hk]
      exact ih st front back hlt hbuf hdata hmax hroom

end Save

section
variable {env : OpEnv} {s : OpSession} {b : OpKind → CtxBytes}

/-- The list has all kinds of operations. -/
theorem mem_all (k : OpKind) : k ∈ OpKind.all := by cases k <;> decide

variable (h : Saveable env s b)
include h

/-- Something is saved. -/
theorem Saveable.savedOps_ne_nil : (savedOps s OpKind.all).length ≠ 0 := by
  obtain ⟨k, hk⟩ := h.active
  have hmem : k ∈ savedOps s OpKind.all :=
    mem_filter.mpr ⟨mem_all k, decide_eq_true hk⟩
  exact Nat.ne_of_gt (length_pos_of_mem hmem)

/-- The length of the blob does not wrap around. -/
theorem Saveable.zero_add_lt : 0 + (blobOf env s b OpKind.all).length < 2 ^ 64 := by
  rw [zero_add]
  exact h.length_lt

/-- The length query. -/
theorem sessionMgrGetOpState_length (buf : List UInt8) :
    sessionMgrGetOpState env s true buf = .ok (buf, (blobOf env s b OpKind.all).length) := by
  rw [sessionMgrGetOpState, check_bind h.find, saveOp_length h.ctx h.zero_add_lt, ok_bind,
    check_of (by dsimp only; rw [zero_add]; exact h.savedOps_ne_nil)]
  rw [zero_add]
  rfl

/-- The call with a buffer that is large enough writes the blob to its start. -/
theorem sessionMgrGetOpState_write {buf : List UInt8}
    (hbuf : (blobOf env s b OpKind.all).length ≤ buf.length) :
    sessionMgrGetOpState env s false buf =
      .ok (blobOf env s b OpKind.all ++ buf.drop (blobOf env s b OpKind.all).length,
        (blobOf env s b OpKind.all).length) := by
  obtain ⟨st', hst', hbuf', hall', hops'⟩ :=
    saveOp_write h.ctx ⟨buf, 0, buf.length, 0, 0⟩ [] buf h.zero_add_lt rfl rfl rfl hbuf
  rw [sessionMgrGetOpState, check_bind h.find, hst', ok_bind, check_of, ok_bind, hbuf', hall']
  · rw [zero_add]
    rfl
  · rw [hops', zero_add]
    exact h.savedOps_ne_nil

end

/-! ### A saved record in a blob -/

section Fields
variable {env : OpEnv} {data : List UInt8} {off v : Nat}

/-- A word comes back from its bytes. -/
theorem wordAt_of_at (h : At data off (env.word v)) (hv : v < 2 ^ 64) :
    wordAt env data off = v := by
  have htake := h.take_drop
  rw [length_word] at htake
  rw [wordAt, htake]
  exact wordValue_wordBytes_of_lt hv

end Fields

/-- What the walks read from the image of a context. -/
structure ImageAt (env : OpEnv) (data : List UInt8) (off : Nat) (k : OpKind) (c : OpCtx) :
    Prop where
  mechanism : wordAt env data (off + k.mechOffset) = c.mechanism
  ulParameterLen : wordAt env data (off + k.mechOffset + 16) = c.ulParameterLen
  contextLen : wordAt env data (off + k.mechOffset + 32) = c.contextLen
  contextFreeFunc : wordAt env data (off + k.mechOffset + 40) = c.contextFreeFunc
  flags : (data.drop (off + k.mechOffset + 48)).take k.flagCount = c.flags
  savedSignatureLen : k.isSignVerify → wordAt env data (off + 80) = c.savedSignatureLen
  savedSignature : k = .sign → wordAt env data (off + 72) = 0

section Image
variable {env : OpEnv} {k : OpKind} {c : OpCtx} {b : CtxBytes} {data : List UInt8} {off : Nat}

/-- The image from the mechanism on. -/
theorem at_mech (h : At data off (ctxImage env k c)) :
    ∃ tail, At data (off + k.mechOffset) (env.word c.mechanism ++
      (env.word (env.addr c.pParameter) ++
      (env.word c.ulParameterLen ++ (env.word (env.addr c.context) ++ (env.word c.contextLen ++
        (env.word c.contextFreeFunc ++ (c.flags ++ tail))))))) ∧
      (k.isSignVerify → tail = replicate 7 0 ++ (env.word (env.addr c.savedSignature) ++
        env.word c.savedSignatureLen)) := by
  have hkey (tail : List UInt8) (h : At data off (env.word c.key ++ tail)) :
      At data (off + 8) tail := by
    have hright := h.right
    rwa [length_word] at hright
  cases k with
  | digest => exact ⟨_, h, nofun⟩
  | encr | decr => exact ⟨_, hkey _ h, nofun⟩
  | sign | verify => exact ⟨_, hkey _ h, fun _ => rfl⟩

/-- The fields come back from the image of a context. -/
theorem SaveableCtx.imageAt (h : SaveableCtx k c b) (hlt : (bodyOf env k c b).length < 2 ^ 64)
    (hat : At data off (ctxImage env k c)) : ImageAt env data off k c := by
  obtain ⟨hcontextLen, hparamLen, hsigLen⟩ : c.contextLen < 2 ^ 64 ∧
      c.ulParameterLen < 2 ^ 64 ∧ (k.isSignVerify → c.savedSignatureLen < 2 ^ 64) := by
    rw [h.length_body] at hlt
    rw [h.context.2, h.mechParam.2]
    refine ⟨by omega, by omega, fun hk => ?_⟩
    rw [(h.savedSignature hk).2]
    omega
  obtain ⟨tail, hmech, htail⟩ := at_mech hat
  -- one member after the other
  have h1 := hmech.right
  have h2 := h1.right
  have h3 := h2.right
  have h4 := h3.right
  have h5 := h4.right
  have h6 := h5.right
  have h7 := h6.right
  simp only [length_word, h.length_flags, add_assoc] at h1 h2 h3 h4 h5 h6 h7
  refine ⟨?_, ?_, ?_, ?_, ?_, fun hk => ?_, fun hk => ?_⟩
  · exact wordAt_of_at hmech.left h.mechanism_lt
  · rw [add_assoc]
    exact wordAt_of_at h2.left hparamLen
  · rw [add_assoc]
    exact wordAt_of_at h4.left hcontextLen
  · rw [add_assoc]
    exact wordAt_of_at h5.left h.contextFreeFunc_lt
  · have hflags := h6.left.take_drop
    rw [h.length_flags] at hflags
    rw [add_assoc]
    exact hflags
  · rw [htail hk] at h7
    have h9 := h7.right.right
    have hoff : k.mechOffset + k.flagCount = 17 := by
      cases k <;> first | rfl | exact absurd hk (by decide)
    simp only [length_word, length_replicate] at h9
    rw [show off + (k.mechOffset + (8 + (8 + (8 + (8 + (8 + (8 + k.flagCount))))))) + 7 + 8
      = off + 80
      by omega] at h9
    exact wordAt_of_at h9 (hsigLen hk)
  · subst hk
    rw [htail rfl] at h7
    have h8 := h7.right.left
    rw [h.sign_null rfl, env.addr_null] at h8
    exact wordAt_of_at h8 (by decide)

end Image

/-! ### The walks over a saved record -/

/-- What the walks find out about the record of an operation. -/
def headOf (env : OpEnv) (k : OpKind) (c : OpCtx) (b : CtxBytes) : RecordHead where
  kind := k
  dataLen := (bodyOf env k c b).length
  lens := ⟨c.contextLen, c.ulParameterLen, if k.isSignVerify then c.savedSignatureLen else 0⟩

/-- The context `c'` is the context `c` with another key: the members are the same and the
pointers hold the same bytes. -/
structure RestoredAs (k : OpKind) (c : OpCtx) (b : CtxBytes) (key : Nat) (c' : OpCtx) : Prop where
  key : c'.key = key
  mechanism : c'.mechanism = c.mechanism
  contextFreeFunc : c'.contextFreeFunc = c.contextFreeFunc
  flags : c'.flags = c.flags
  context : PtrHolds c'.context c'.contextLen b.context
  mechParam : PtrHolds c'.pParameter c'.ulParameterLen b.mechParam
  savedSignature : k.isSignVerify → PtrHolds c'.savedSignature c'.savedSignatureLen b.savedSignature

/-- A name compares equal to its field. -/
theorem takeWhile_strncpy {s : List UInt8} (h : ∀ b ∈ s, b ≠ 0) (n : Nat) :
    strncmpEq n (strncpy n s) s := by
  have htake : strncpy n s = s.take n ++ replicate (n - s.length) 0 := by
    rw [strncpy, take_append, take_replicate]
    congr 2
    omega
  rw [strncmpEq, htake, takeWhile_append_of_pos]
  · cases n - s.length with
    | zero => exact append_nil _
    | succ m =>
      rw [replicate_succ, takeWhile_cons_of_neg (by decide)]
      exact append_nil _
  · intro x hx
    exact decide_eq_true (h x (mem_of_mem_take hx))

section Head
variable {env : OpEnv} {k : OpKind} {c : OpCtx} {b : CtxBytes} {data : List UInt8} {state cur : Nat}

/-- A kind of operation comes back from its code. -/
theorem ofCode_code (k : OpKind) : OpKind.ofCode k.code = some k := by cases k <;> rfl

/-- The codes fit in a word. -/
theorem code_lt (k : OpKind) : k.code < 2 ^ 64 := by cases k <;> decide

/-- The members of a header in the blob. -/
theorem header_of_at {n : Nat} (hstate : state < 2 ^ 64) (hn : n < 2 ^ 64)
    (h : At data cur (opStateData env state k n)) :
    HeaderMatches env state data cur ∧ wordAt env data (cur + 72) = k.code ∧
      wordAt env data (cur + 80) = n := by
  have h1 := h.right
  have h2 := h1.right
  have h3 := h2.right
  have h4 := h3.right
  have h5 := h4.right
  simp only [length_strncpy, env.length_manufacturerID, env.length_model, length_word,
    LIBRARY_VERSION_LEN, MANUFACTURER_ID_LEN, MODEL_LEN, add_assoc, Nat.reduceAdd]
    at h1 h2 h3 h4 h5
  have hversion := h.left.take_drop
  have hmanufacturer := h1.left.take_drop
  have hmodel := h2.left.take_drop
  rw [length_strncpy] at hversion
  rw [env.length_manufacturerID] at hmanufacturer
  rw [env.length_model] at hmodel
  refine ⟨⟨?_, hmanufacturer, hmodel, (wordAt_of_at h3.left hstate).symm⟩,
    wordAt_of_at h4.left (code_lt k), wordAt_of_at h5 hn⟩
  rw [hversion]
  exact takeWhile_strncpy env.packageVersion_ne_zero _

/-- The body of a record is shorter than the record. -/
theorem length_body_lt (hlt : (recordOf env state k c b).length < 2 ^ 64) :
    (bodyOf env k c b).length < 2 ^ 64 := by
  rw [recordOf, length_append] at hlt
  omega

/-- The walks go on behind the record. -/
theorem advance_headOf (hlt : (recordOf env state k c b).length < 2 ^ 64) :
    (headOf env k c b).advance = (recordOf env state k c b).length := by
  have hrecord := hlt
  rw [recordOf, length_append, length_opStateData] at hrecord ⊢
  rw [RecordHead.advance, headOf, ulongAdd]
  dsimp only
  omega

/-- The body stands behind the header. -/
theorem at_body (hat : At data cur (recordOf env state k c b)) :
    At data (ctxOffset cur) (bodyOf env k c b) := by
  have hright := At.right hat
  rwa [length_opStateData] at hright

/-- A pointer to a copy describes the bytes that were copied. -/
theorem holds_copiedAt {bytes : List UInt8} {off n : Nat} (hn : n = bytes.length)
    (hbytes : At data off bytes) : PtrHolds (copiedAt data off n) n bytes := by
  refine ⟨?_, hn⟩
  rw [copiedAt]
  split
  · next hzero =>
    exact .inr ⟨rfl, eq_nil_of_length_eq_zero (hn.symm.trans hzero)⟩
  · rw [hn, hbytes.take_drop]
    exact .inl rfl

section
variable (h : SaveableCtx k c b)
include h

/-- The lengths in a record add up to its body. -/
theorem SaveableCtx.total_eq (hlt : (bodyOf env k c b).length < 2 ^ 64) :
    (headOf env k c b).lens.total k = (bodyOf env k c b).length := by
  have hsig : (if k.isSignVerify then c.savedSignatureLen else 0) = b.savedSignature.length := by
    split
    · next hk => exact (h.savedSignature hk).2
    · next hk =>
      rw [h.no_signature (by rintro rfl; exact hk rfl), length_nil]
  rw [h.length_body] at hlt ⊢
  simp only [headOf, CtxLens.total, hsig, h.context.2, h.mechParam.2, ulongAdd]
  omega

/-- The length of the saved signature comes back. -/
theorem SaveableCtx.signatureLen_eq :
    signatureLen (headOf env k c b) = b.savedSignature.length := by
  rw [signatureLen, headOf]
  dsimp only
  split
  · next hk =>
    subst hk
    exact (h.savedSignature rfl).2
  · next hk => rw [h.no_signature hk, length_nil]

/-- The three byte strings of a record, where the second walk copies them from. -/
theorem SaveableCtx.at_bytes (hat : At data cur (recordOf env state k c b)) :
    At data (contextOffset (headOf env k c b) cur) b.context ∧
      At data (paramOffset (headOf env k c b) cur) b.mechParam ∧
      At data (signatureOffset (headOf env k c b) cur) b.savedSignature := by
  have h1 := (at_body hat).right
  have h2 := h1.right
  have h3 := h2.right
  rw [h.length_image] at h1 h2 h3
  rw [← h.context.2] at h2 h3
  rw [← h.mechParam.2] at h3
  exact ⟨h1.left, h2.left, h3⟩

/-- A record that was written is inside the blob. -/
theorem SaveableCtx.recordInside (hat : At data cur (recordOf env state k c b)) :
    RecordInside data cur (headOf env k c b) := by
  obtain ⟨hcontext, hparam, hsignature⟩ := h.at_bytes hat
  have himage := (at_body hat).left.le_length
  refine ⟨?_, .inr ?_, .inr ?_, .inr ?_⟩
  · rw [h.length_image] at himage
    exact himage
  · have hle := hcontext.le_length
    rw [← h.context.2] at hle
    exact hle
  · have hle := hparam.le_length
    rw [← h.mechParam.2] at hle
    exact hle
  · rw [h.signatureLen_eq]
    exact hsignature.le_length

end

variable (h : SaveableCtx k c b) (hlt : (recordOf env state k c b).length < 2 ^ 64)
  (hat : At data cur (recordOf env state k c b))
include h hlt hat

/-- The first walk accepts the record of an operation. -/
theorem SaveableCtx.recordAt (hstate : state < 2 ^ 64) :
    RecordAt env state data cur (headOf env k c b) := by
  have hbody := length_body_lt hlt
  have hlen := hat.le_length
  obtain ⟨hheader, hcode, hdataLen⟩ := header_of_at hstate hbody hat.left
  have hadvance := advance_headOf hlt
  have hrecord : (recordOf env state k c b).length = _ := h.length_record
  have hroom : cur + SIZEOF_OP_STATE_DATA ≤ data.length := by omega
  have himage := h.imageAt hbody (at_body hat).left
  have hlens : lensAt env data k (ctxOffset cur) = (headOf env k c b).lens := by
    rw [lensAt, himage.contextLen, himage.ulParameterLen, headOf]
    congr 1
    split
    · next hk => exact himage.savedSignatureLen hk
    · rfl
  have hinside : ctxOffset cur + lensEnd k ≤ data.length := by
    have hsize : lensEnd k ≤ k.sizeofCtx := by cases k <;> decide
    rw [ctxOffset]
    omega
  have hcodeWord : cur + 72 + 8 ≤ data.length := by
    rw [SIZEOF_OP_STATE_DATA] at hroom
    omega
  refine ⟨hroom, ?_⟩
  rw [validateRecord, readDataLen_eq hroom, hdataLen, if_pos, ok_bind,
    (checkHeader_eq_ok hroom).mpr hheader, ok_bind, readBody, readWord_of_le hcodeWord, ok_bind,
    hcode, ofCode_code]
  · dsimp only
    rw [← ctxOffset, readLens_of_le hinside, ok_bind, hlens, check_of (h.total_eq hbody)]
    rfl
  · rw [RecordHead.advance, headOf] at hadvance
    dsimp only at hadvance
    omega

/-- The second walk restores the context of a saved operation. -/
theorem SaveableCtx.restoredAs (keys : OpKeys) :
    RestoredAs k c b (keys.of k) (ctxAt env keys data cur (headOf env k c b)) := by
  obtain ⟨hcontext, hparam, hsignature⟩ := h.at_bytes hat
  -- the second walk reads the other members from its copy of the image
  have htake : (data.drop (ctxOffset cur)).take k.sizeofCtx = ctxImage env k c := by
    have htake := (at_body hat).left.take_drop
    rwa [h.length_image] at htake
  have himage := h.imageAt (length_body_lt hlt) (at_self (ctxImage env k c))
  have hmechanism := himage.mechanism
  have hfree := himage.contextFreeFunc
  have hflags := himage.flags
  have hsign := himage.savedSignature
  simp only [zero_add] at hmechanism hfree hflags hsign
  rw [← htake] at hmechanism hfree hflags hsign
  refine ⟨?_, hmechanism, hfree, hflags, holds_copiedAt h.context.2 hcontext,
    holds_copiedAt h.mechParam.2 hparam, fun hk => ?_⟩
  · cases k <;> rfl
  · cases k with
    | encr | decr | digest => cases hk
    | sign =>
      refine ⟨.inr ⟨if_pos (hsign rfl), h.no_signature (by decide)⟩, (h.savedSignature rfl).2⟩
    | verify =>
      exact ⟨(holds_copiedAt h.signatureLen_eq hsignature).1, (h.savedSignature rfl).2⟩

end Head

/-! ### The walks over a saved blob -/

section Blob
variable {env : OpEnv} {s t : OpSession} {b : OpKind → CtxBytes} {ks : List OpKind}
  {data front : List UInt8} {keys : OpKeys}
  (hctx : ∀ k, (s.ctx k).active k = TRUE → SaveableCtx k (s.ctx k) (b k))
  (hstate : s.state < 2 ^ 64)
include hctx hstate

/-- The first record of the rest of a blob. -/
theorem recordAt_front {k : OpKind} (hk : (s.ctx k).active k = TRUE)
    (hdata : data = front ++ blobOf env s b (k :: ks)) (hlt : data.length < 2 ^ 64) :
    At data front.length (recordOf env s.state k (s.ctx k) (b k)) ∧
      (recordOf env s.state k (s.ctx k) (b k)).length < 2 ^ 64 ∧
      RecordAt env s.state data front.length (headOf env k (s.ctx k) (b k)) ∧
      front.length + (headOf env k (s.ctx k) (b k)).advance =
        (front ++ recordOf env s.state k (s.ctx k) (b k)).length ∧
      data = (front ++ recordOf env s.state k (s.ctx k) (b k)) ++ blobOf env s b ks := by
  rw [blobOf_cons_of_active hk] at hdata
  have hat : At data front.length (recordOf env s.state k (s.ctx k) (b k)) :=
    ⟨front, _, hdata, rfl⟩
  have hle := hat.le_length
  have hrecord : (recordOf env s.state k (s.ctx k) (b k)).length < 2 ^ 64 := by omega
  refine ⟨hat, hrecord, (hctx k hk).recordAt hrecord hat hstate, ?_, ?_⟩
  · rw [advance_headOf hrecord, length_append]
  · rw [hdata, append_assoc]

/-- The first walk accepts the blob of a session in the same session state. -/
theorem validate_blobOf (hdata : data = front ++ blobOf env s b ks) (hlt : data.length < 2 ^ 64)
    (needed : KeysNeeded) :
    ∃ fuel, validate env s.state data fuel front.length needed =
      some (.ok ((savedOps s ks).foldl KeysNeeded.count needed)) := by
  induction ks generalizing front needed with
  | nil =>
    have hend : data.length = front.length := by
      rw [hdata]
      exact congrArg length (append_nil front)
    refine ⟨1, ?_⟩
    rw [validate_of_short (by rw [hend, SIZEOF_OP_STATE_DATA]; omega), hend,
      if_neg (lt_irrefl _)]
    rfl
  | cons k ks ih =>
    by_cases hk : (s.ctx k).active k = TRUE
    · obtain ⟨-, -, hr, hnext, hrest⟩ := recordAt_front hctx hstate hk hdata hlt
      obtain ⟨fuel, hfuel⟩ := ih hrest (needed.count k)
      refine ⟨fuel + 1, ?_⟩
      rw [validate_of_record hr, hnext, savedOps_cons_of_active hk]
      exact hfuel
    · rw [blobOf_cons_of_not hk] at hdata
      rw [savedOps_cons_of_not hk]
      exact ih hdata needed

/-- The operations of the list are restored, and the slots of the others are as before, but for the
saved signature of the verify operation, which the restore of a sign operation clears. -/
structure RestoredOps (s : OpSession) (b : OpKind → CtxBytes) (keys : OpKeys) (ops : List OpKind)
    (t t' : OpSession) : Prop where
  restored : ∀ k ∈ ops, RestoredAs k (s.ctx k) (b k) (keys.of k) (t'.ctx k)
  others : ∀ k, k ∉ ops → t'.ctx k = t.ctx k ∨
    k = .verify ∧ .sign ∈ ops ∧ t'.ctx k = { t.ctx k with savedSignature := .null }

omit hctx hstate in
/-- One more operation is restored before the others. A sign operation must not come after a
verify operation. -/
theorem RestoredOps.cons {k : OpKind} {ops : List OpKind} {c : OpCtx} {t' : OpSession}
    (h : RestoredOps s b keys ops (t.store k c) t') (hmem : k ∉ ops)
    (horder : k = .verify → .sign ∉ ops) (hc : RestoredAs k (s.ctx k) (b k) (keys.of k) c) :
    RestoredOps s b keys (k :: ops) t t' := by
  have hself : (t.store k c).ctx k = c := by
    rw [OpSession.store]
    split
    · next hk =>
      subst hk
      rfl
    · exact Function.update_self _ _ _
  -- Storing the sign context also clears the pointer to the saved signature of `verify`.
  have hother (j : OpKind) (hj : j ≠ k) : (t.store k c).ctx j = t.ctx j ∨
      j = .verify ∧ k = .sign ∧ (t.store k c).ctx j = { t.ctx j with savedSignature := .null } := by
    rw [OpSession.store]
    split
    · next hk =>
      subst hk
      by_cases hv : j = .verify
      · subst hv
        exact .inr ⟨rfl, rfl, rfl⟩
      · left
        exact (Function.update_of_ne hv _ _).trans (Function.update_of_ne hj _ _)
    · exact .inl (Function.update_of_ne hj _ _)
  refine ⟨fun j hj => ?_, fun j hj => ?_⟩
  -- `k` is stored by this step, and a later `sign` would change it only if `k` is `verify`.
  · obtain rfl | hj := mem_cons.mp hj
    · obtain heq | ⟨hv, hs, -⟩ := h.others j hmem
      · rw [heq, hself]
        exact hc
      · exact absurd hs (horder hv)
    · exact h.restored j hj
  · rw [mem_cons, not_or] at hj
    obtain heq | ⟨hv, hs, heq⟩ := h.others j hj.2
    · obtain heq' | ⟨hv, hs, heq'⟩ := hother j hj.1
      · exact .inl (heq.trans heq')
      · exact .inr ⟨hv, mem_cons.mpr (.inl hs.symm), heq.trans heq'⟩
    · refine .inr ⟨hv, mem_cons_of_mem k hs, ?_⟩
      obtain heq' | ⟨-, -, heq'⟩ := hother j hj.1
      · rw [heq, heq']
      · rw [heq, heq']

/-- The second walk restores the operations, if the keys that they need are there and memory is. -/
theorem restore_blobOf (t : OpSession) {malloc : Malloc} (hmalloc : ∀ cur site, malloc cur site)
    (hkeys : ∀ k ∈ savedOps s ks, k ≠ .digest → keys.of k ≠ CK_INVALID_HANDLE)
    (horder : ks.Pairwise fun j k => j ≠ k ∧ ¬ (j = .verify ∧ k = .sign))
    (hdata : data = front ++ blobOf env s b ks) (hlt : data.length < 2 ^ 64) :
    ∃ fuel t', restore env malloc keys data fuel front.length t = some (.ret .ok t') ∧
      RestoredOps s b keys (savedOps s ks) t t' := by
  induction ks generalizing front t with
  | nil =>
    have hend : front.length = data.length := by
      rw [hdata]
      exact congrArg length (append_nil front).symm
    refine ⟨1, t, ?_, nofun, fun k _ => .inl rfl⟩
    rw [hend]
    exact restore_of_end
  | cons k ks ih =>
    obtain ⟨hfirst, horder⟩ := pairwise_cons.mp horder
    by_cases hk : (s.ctx k).active k = TRUE
    · rw [savedOps_cons_of_active hk] at hkeys ⊢
      obtain ⟨hat, hrecord, hr, hnext, hrest⟩ := recordAt_front hctx hstate hk hdata hlt
      have hsave := hctx k hk
      have hstep := restoreRecord_eq malloc t hr (hkeys k mem_cons_self)
      rw [copyRecord_of_malloc (hsave.recordInside hat) (hmalloc _)] at hstep
      obtain ⟨fuel, t', hret, hops⟩ := ih _ (fun j hj => hkeys j (mem_cons_of_mem k hj)) horder
        hrest
      have hks : ∀ j ∈ savedOps s ks, j ∈ ks := fun j hj => (mem_filter.mp hj).1
      refine ⟨fuel + 1, t', ?_, hops.cons ?_ ?_ (hsave.restoredAs hrecord hat keys)⟩
      · rw [restore_of_record hr hstep, hnext]
        exact hret
      · exact fun hmem => (hfirst k (hks k hmem)).1 rfl
      · exact fun hv hmem => (hfirst _ (hks _ hmem)).2 ⟨hv, rfl⟩
    · rw [blobOf_cons_of_not hk] at hdata
      rw [savedOps_cons_of_not hk] at hkeys ⊢
      exact ih t hkeys horder hdata

end Blob

/-! ### The round trip -/

/-- The keys are the ones that the saved operations need. -/
def KeysMatch (s : OpSession) (keys : OpKeys) : Prop :=
  ((∃ k, (s.ctx k).active k = TRUE ∧ (k = .encr ∨ k = .decr)) ↔ keys.encrKey ≠ CK_INVALID_HANDLE) ∧
    ((∃ k, (s.ctx k).active k = TRUE ∧ (k = .sign ∨ k = .verify)) ↔
      keys.authKey ≠ CK_INVALID_HANDLE)

/-- Every saved operation is in its slot, with the caller's key, and the other slots are
inactive. -/
def Restores (s : OpSession) (b : OpKind → CtxBytes) (keys : OpKeys) (t : OpSession) : Prop :=
  ∀ k, if (s.ctx k).active k = TRUE then RestoredAs k (s.ctx k) (b k) (keys.of k) (t.ctx k)
    else (t.ctx k).active k = 0

/-- The saved operations are the active ones. -/
theorem mem_savedOps_all {s : OpSession} {k : OpKind} :
    k ∈ savedOps s OpKind.all ↔ (s.ctx k).active k = TRUE := by
  rw [savedOps, mem_filter, decide_eq_true_eq, and_iff_right (mem_all k)]

/-- The counter of the records of a kind. -/
theorem foldl_count {f : KeysNeeded → Nat} {p : OpKind → Prop} [DecidablePred p]
    (hcount : ∀ n k, f (n.count k) = if p k then f n + 1 else f n) (ops : List OpKind)
    (n : KeysNeeded) : f (ops.foldl KeysNeeded.count n) = f n + ops.countP p := by
  induction ops generalizing n with
  | nil => rfl
  | cons k ops ih =>
    rw [foldl_cons, ih, hcount, countP_cons]
    by_cases hk : p k
    · simp only [hk, if_true, decide_true]
      omega
    · simp [hk]

/-- The check of the keys that the walks have counted. -/
theorem keysMatch_iff {s : OpSession} {keys : OpKeys} :
    KeysMatch s keys ↔
      checkKeys ((savedOps s OpKind.all).foldl KeysNeeded.count ⟨0, 0⟩) keys = .ok () := by
  have hneeds (f : KeysNeeded → Nat) (p : OpKind → Prop) [DecidablePred p]
      (hcount : ∀ n k, f (n.count k) = if p k then f n + 1 else f n) (hzero : f ⟨0, 0⟩ = 0) :
      0 < f ((savedOps s OpKind.all).foldl KeysNeeded.count ⟨0, 0⟩) ↔
        ∃ k, (s.ctx k).active k = TRUE ∧ p k := by
    rw [foldl_count hcount, hzero, zero_add, countP_pos_iff]
    simp only [mem_savedOps_all, decide_eq_true_eq]
  rw [checkKeys_eq_ok, KeysMatch,
    hneeds KeysNeeded.encr (fun k => k = .encr ∨ k = .decr) (fun n k => by cases k <;> rfl) rfl,
    hneeds KeysNeeded.auth (fun k => k = .sign ∨ k = .verify) (fun n k => by cases k <;> rfl) rfl]

section RoundTrip
variable {env : OpEnv} {s t : OpSession} {b : OpKind → CtxBytes} {keys : OpKeys} {malloc : Malloc}

/-- The blob of a session is refused in another session state. -/
theorem set_op_state_of_other_state (h : Saveable env s b) (hstate : t.state ≠ s.state) :
    sessionMgrSetOpState env malloc t keys (blobOf env s b OpKind.all) 1 =
      some (.ret .savedStateInvalid t) := by
  obtain ⟨k, ops, hops⟩ := exists_cons_of_length_pos
    (Nat.pos_of_ne_zero h.savedOps_ne_nil)
  have hk : (s.ctx k).active k = TRUE :=
    mem_savedOps_all.mp (by rw [hops]; exact mem_cons_self)
  have hsave := h.ctx k hk
  have hblob : blobOf env s b OpKind.all = recordOf env s.state k (s.ctx k) (b k) ++
      ops.flatMap fun k => recordOf env s.state k (s.ctx k) (b k) := by
    rw [blobOf, hops, flatMap_cons]
  have hlength : (blobOf env s b OpKind.all).length < 2 ^ 64 := h.length_lt
  generalize blobOf env s b OpKind.all = data at *
  have hat : At data 0 (recordOf env s.state k (s.ctx k) (b k)) := by
    rw [hblob]
    exact at_start _ _
  have hle := hat.le_length
  have hrecord : (recordOf env s.state k (s.ctx k) (b k)).length < 2 ^ 64 := by omega
  have hroom : 0 + SIZEOF_OP_STATE_DATA ≤ data.length := by
    rw [hsave.length_record] at hle
    omega
  obtain ⟨hheader, -, -⟩ := header_of_at h.state_lt (length_body_lt hrecord) hat.left
  -- the session state in the header is the one of `s`
  have hother : ¬ HeaderMatches env t.state data 0 := fun hm =>
    hstate (hm.2.2.2.trans hheader.2.2.2.symm)
  have hlen := (hsave.recordAt hrecord hat h.state_lt).head.1
  have hvalidate : validateRecord env t.state data 0 (data.length - 0) =
      .error (.rc .savedStateInvalid) := by
    rw [validateRecord, hlen, ok_bind, checkHeader_of_not hroom hother]
    rfl
  rw [sessionMgrSetOpState, validate_of_error hroom hvalidate]

/-- No kind is walked over twice, and a signature comes before a verification. -/
theorem order_all :
    OpKind.all.Pairwise fun j k => j ≠ k ∧ ¬ (j = .verify ∧ k = .sign) := by decide

/-- The keys that the saved operations need are there. -/
theorem KeysMatch.key (h : KeysMatch s keys) {k : OpKind} (hk : (s.ctx k).active k = TRUE)
    (hdigest : k ≠ .digest) : keys.of k ≠ CK_INVALID_HANDLE := by
  cases k with
  | digest => exact absurd rfl hdigest
  | encr => exact h.1.mp ⟨.encr, hk, .inl rfl⟩
  | decr => exact h.1.mp ⟨.decr, hk, .inr rfl⟩
  | sign => exact h.2.mp ⟨.sign, hk, .inl rfl⟩
  | verify => exact h.2.mp ⟨.verify, hk, .inr rfl⟩

/-- In the same session state, with the keys that are needed, the operations are restored. -/
theorem set_op_state_restores (h : Saveable env s b) (hstate : t.state = s.state)
    (hkeys : KeysMatch s keys) (hmalloc : ∀ cur site, malloc cur site) :
    ∃ fuel t', sessionMgrSetOpState env malloc t keys (blobOf env s b OpKind.all) fuel =
      some (.ret .ok t') ∧ Restores s b keys t' := by
  have hdata := (nil_append (blobOf env s b OpKind.all)).symm
  obtain ⟨fuel, hvalidate⟩ := validate_blobOf h.ctx h.state_lt hdata h.length_lt ⟨0, 0⟩
  obtain ⟨fuel', t', hret, hops⟩ := restore_blobOf h.ctx h.state_lt t.cleanup hmalloc
    (fun k hk => hkeys.key (mem_savedOps_all.mp hk)) order_all hdata h.length_lt
  refine ⟨max fuel fuel', t', ?_, fun k => ?_⟩
  · rw [← hstate, length_nil] at hvalidate
    rw [length_nil] at hret
    rw [sessionMgrSetOpState_of_ok (validate_mono (le_max_left _ _) hvalidate)
      (keysMatch_iff.mp hkeys)]
    exact restore_mono (le_max_right _ _) hret
  · split
    · next hk => exact hops.restored k (mem_savedOps_all.mpr hk)
    · next hk =>
      have hclean : (t.cleanup.ctx k).active k = 0 := by
        show OpCtx.active k (if _ then _ else _) = 0
        split
        · cases k <;> rfl
        · next h => exact not_not.mp h
      obtain heq | ⟨-, -, heq⟩ := hops.others k fun hmem => hk (mem_savedOps_all.mp hmem)
      all_goals
        rw [heq]
        exact hclean

/-- With other keys the blob is refused. -/
theorem set_op_state_of_other_keys (malloc : Malloc) (h : Saveable env s b)
    (hstate : t.state = s.state) (hkeys : ¬ KeysMatch s keys) :
    ∃ fuel rc, sessionMgrSetOpState env malloc t keys (blobOf env s b OpKind.all) fuel =
      some (.ret rc t) ∧ rc ≠ .ok := by
  obtain ⟨fuel, hvalidate⟩ := validate_blobOf h.ctx h.state_lt
    (nil_append (blobOf env s b OpKind.all)).symm h.length_lt ⟨0, 0⟩
  rw [← hstate, length_nil] at hvalidate
  refine ⟨fuel, ?_⟩
  rcases hcheck : checkKeys ((savedOps s OpKind.all).foldl KeysNeeded.count ⟨0, 0⟩) keys
    with (_ | rc) | _
  · exact absurd hcheck checkKeys_ne_fault
  · refine ⟨rc, ?_, ?_⟩
    · rw [sessionMgrSetOpState, hvalidate]
      dsimp only
      rw [hcheck]
    · rintro rfl
      exact checkKeys_ne_ok hcheck
  · exact absurd (keysMatch_iff.mpr hcheck) hkeys

end RoundTrip

/-- Saving and restoring the operations of a session. The blob has the length that the length query
reports. It is taken back in a session in the same session state with the keys that the saved
operations need, and then every saved operation is in its slot and the other slots are inactive.
Elsewhere it is refused and the session stays as it is. -/
theorem op_state_round_trip (env : OpEnv) (s : OpSession) (b : OpKind → CtxBytes)
    (h : Saveable env s b) :
    ∃ blob : List UInt8, (∀ buf, sessionMgrGetOpState env s true buf = .ok (buf, blob.length)) ∧
      (∀ buf, blob.length ≤ buf.length → sessionMgrGetOpState env s false buf =
        .ok (blob ++ buf.drop blob.length, blob.length)) ∧
      ∀ (t : OpSession) (keys : OpKeys) (malloc : Malloc), (∀ cur site, malloc cur site) →
        ∃ fuel rc t', sessionMgrSetOpState env malloc t keys blob fuel = some (.ret rc t') ∧
          (rc = .ok ↔ t.state = s.state ∧ KeysMatch s keys) ∧
          (rc = .ok → Restores s b keys t') ∧ (rc ≠ .ok → t' = t) := by
  refine ⟨blobOf env s b OpKind.all, sessionMgrGetOpState_length h,
    fun buf hbuf => sessionMgrGetOpState_write h hbuf, fun t keys malloc hmalloc => ?_⟩
  by_cases hstate : t.state = s.state
  · by_cases hkeys : KeysMatch s keys
    · obtain ⟨fuel, t', hret, hrestores⟩ := set_op_state_restores h hstate hkeys hmalloc
      exact ⟨fuel, .ok, t', hret, iff_of_true rfl ⟨hstate, hkeys⟩, fun _ => hrestores,
        fun hne => absurd rfl hne⟩
    · obtain ⟨fuel, rc, hret, hne⟩ := set_op_state_of_other_keys malloc h hstate hkeys
      exact ⟨fuel, rc, t, hret, iff_of_false hne fun hm => hkeys hm.2, fun hok => absurd hok hne,
        fun _ => rfl⟩
  · exact ⟨1, .savedStateInvalid, t, set_op_state_of_other_state h hstate,
      iff_of_false nofun fun hm => hstate hm.1, nofun, fun _ => rfl⟩

/-- A session with an active digest operation that has two context bytes. -/
def digestSession : OpSession where
  state := 0
  findActive := false
  ctx k := if k = .digest then ⟨0, 0x250, .null, 0, .heap [1, 2], 2, 0, [0, 1, 0, 0, 0], .null, 0⟩
    else idleCtx

/-- The bytes of the digest operation. -/
def digestBytes : OpKind → CtxBytes := fun _ => ⟨[1, 2], [], []⟩

/-- The session with a digest can be saved. -/
theorem saveable_digestSession : Saveable emptyEnv digestSession digestBytes where
  find := rfl
  active := ⟨.digest, rfl⟩
  ctx k hk := by
    cases k with
    | digest =>
      exact ⟨rfl, ⟨.inl rfl, rfl⟩, ⟨.inr ⟨rfl, rfl⟩, rfl⟩, nofun, fun _ => rfl, nofun, rfl,
        by decide, by decide, by decide⟩
    | encr | decr | sign | verify => exact absurd hk (by decide)
  state_lt := by decide
  length_lt := by decide +kernel

/-- The session also encrypts, with the key 7, an initial vector and one context byte. -/
def encrDigestSession : OpSession :=
  digestSession.setCtx .encr ⟨7, 0x1082, .heap (List.replicate 16 9), 16, .heap [3], 1, 0,
    [0, 1, 0, 0, 0, 0, 0, 0], .null, 0⟩

/-- The bytes of the two operations. -/
def encrDigestBytes : OpKind → CtxBytes
  | .encr => ⟨[3], List.replicate 16 9, []⟩
  | _     => ⟨[1, 2], [], []⟩

/-- The session with an encryption and a digest can be saved. -/
theorem saveable_encrDigestSession : Saveable emptyEnv encrDigestSession encrDigestBytes where
  find := rfl
  active := ⟨.digest, rfl⟩
  ctx k hk := by
    cases k with
    | digest => exact saveable_digestSession.ctx .digest rfl
    | encr =>
      exact ⟨rfl, ⟨.inl rfl, rfl⟩, ⟨.inl rfl, rfl⟩, nofun, fun _ => rfl, nofun, rfl,
        by decide, by decide, by decide⟩
    | decr | sign | verify => exact absurd hk (by decide)
  state_lt := by decide
  length_lt := by decide +kernel

/-- Both operations are restored into a session without operations, with a new key 8. -/
theorem op_state_round_trip_encr_digest :
    ∃ blob, sessionMgrGetOpState emptyEnv encrDigestSession true [] = .ok ([], blob.length) ∧
      ∃ fuel t, sessionMgrSetOpState emptyEnv (fun _ _ => true) idleSession ⟨8, 0⟩ blob fuel =
        some (.ret .ok t) ∧ Restores encrDigestSession encrDigestBytes ⟨8, 0⟩ t := by
  obtain ⟨blob, hlength, -, hset⟩ :=
    op_state_round_trip emptyEnv encrDigestSession encrDigestBytes saveable_encrDigestSession
  obtain ⟨fuel, rc, t, hret, hok, hrestores, -⟩ :=
    hset idleSession ⟨8, 0⟩ (fun _ _ => true) fun _ _ => rfl
  have hkeys : KeysMatch encrDigestSession ⟨8, 0⟩ := by
    refine ⟨iff_of_true ⟨.encr, rfl, .inl rfl⟩ (by decide), iff_of_false ?_ (by decide)⟩
    rintro ⟨k, hk, rfl | rfl⟩ <;> exact absurd hk (by decide)
  obtain rfl : rc = .ok := hok.mpr ⟨rfl, hkeys⟩
  exact ⟨blob, hlength [], fuel, t, hret, hrestores rfl⟩

/-- A blob is not restored into every session: one in another session state refuses it. -/
theorem op_state_other_state_refused :
    ∃ blob, sessionMgrGetOpState emptyEnv digestSession false (List.replicate 146 0) =
        .ok (blob, 146) ∧
      sessionMgrSetOpState emptyEnv (fun _ _ => true) { idleSession with state := 1 }
        ⟨0, 0⟩ blob 1 =
        some (.ret .savedStateInvalid { idleSession with state := 1 }) := by
  have hlen : (blobOf emptyEnv digestSession digestBytes OpKind.all).length = 146 := by
    decide +kernel
  refine ⟨blobOf emptyEnv digestSession digestBytes OpKind.all, ?_, ?_⟩
  · have hroom : (blobOf emptyEnv digestSession digestBytes OpKind.all).length ≤
        (replicate 146 (0 : UInt8)).length := by rw [hlen, length_replicate]
    have hwrite := sessionMgrGetOpState_write saveable_digestSession hroom
    rw [hlen] at hwrite
    rw [hwrite, drop_eq_nil_of_le (by rw [length_replicate]), append_nil]
  · exact set_op_state_of_other_state saveable_digestSession nofun

end OpenCryptoki.Proofs.Common
