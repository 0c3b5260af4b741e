import OpenCryptoki.Common.Pkcs11

/-!
# `OpenCryptoki.Common.OpState`: saving and restoring the operations of a session

`session_mgr_get_op_state` and `session_mgr_set_op_state` of `sess_mgr.c`, with the clean-up
functions of the five operation managers.

A blob is a row of records, one for each active operation. A record is the header
`OP_STATE_DATA`, the image of the context structure, and then the context bytes, the mechanism
parameter and, for a verify operation, the saved signature. The image is copied as it lies in
memory, so it holds the addresses of the pointers too. `OpEnv.addr` says which addresses these
are; it is an arbitrary function.

Memory is explicit. A read of the blob goes through `readAt`, and a read through a pointer of a
context goes through `readPtr`; both fault outside the memory they read. The two walks of
`session_mgr_set_op_state` over the blob are loops that need not end, so they have fuel:
`none` says that the fuel is used up.
-/

set_option autoImplicit false

namespace OpenCryptoki.Common

open Lib

/-! ### Contexts -/

/-- The operations of a session, by their `STATE_...` identifier. -/
inductive OpKind
  | encr
  | decr
  | digest
  | sign
  | verify
  deriving DecidableEq, Repr

namespace OpKind

/-- The operations in the order in which they are saved. -/
def all : List OpKind := [.encr, .decr, .digest, .sign, .verify]

/-- `STATE_ENCR`, `STATE_DECR`, `STATE_DIGEST`, `STATE_SIGN` and `STATE_VERIFY`. -/
def code : OpKind → Nat
  | .encr   => 1
  | .decr   => 2
  | .digest => 3
  | .sign   => 4
  | .verify => 5

def ofCode : Nat → Option OpKind
  | 1 => some .encr
  | 2 => some .decr
  | 3 => some .digest
  | 4 => some .sign
  | 5 => some .verify
  | _ => none

/-- Whether the context is a `SIGN_VERIFY_CONTEXT`. -/
def isSignVerify : OpKind → Bool
  | .sign | .verify          => true
  | .encr | .decr | .digest  => false

/-- Where the mechanism is in the context: after the key, which a `DIGEST_CONTEXT` does not
have. -/
def mechOffset : OpKind → Nat
  | .digest                          => 0
  | .encr | .decr | .sign | .verify  => 8

/-- The number of `CK_BBOOL` members. -/
def flagCount : OpKind → Nat
  | .encr | .decr  => 8
  | .digest        => 5
  | .sign | .verify => 9

/-- The place of `active` among the flags. -/
def activeFlag : OpKind → Nat
  | .encr | .decr | .digest => 1
  | .sign | .verify         => 2

/-- The place of `state_unsaveable` among the flags. -/
def unsaveableFlag : OpKind → Nat
  | .encr | .decr   => 5
  | .digest         => 3
  | .sign | .verify => 6

/-- `sizeof(ENCR_DECR_CONTEXT)`, `sizeof(DIGEST_CONTEXT)` and `sizeof(SIGN_VERIFY_CONTEXT)`. -/
def sizeofCtx : OpKind → Nat
  | .encr | .decr   => 64
  | .digest         => 56
  | .sign | .verify => 88

end OpKind

/-- `sizeof(OP_STATE_DATA)`: the library version, the manufacturer, the model, the session state,
the operation and the length of the rest. -/
def SIZEOF_OP_STATE_DATA : Nat := 88

def LIBRARY_VERSION_LEN : Nat := 16
def MANUFACTURER_ID_LEN : Nat := 32
def MODEL_LEN : Nat := 16

/-- A pointer of a context: `NULL`, memory that the library has allocated, or an address that has
been copied out of a blob. -/
inductive CtxPtr
  | null
  | heap (bytes : List UInt8)
  | wild (address : Nat)
  deriving DecidableEq, Repr

/-- `ENCR_DECR_CONTEXT`, `DIGEST_CONTEXT` or `SIGN_VERIFY_CONTEXT`. A `DIGEST_CONTEXT` has no key,
and only a `SIGN_VERIFY_CONTEXT` has a saved signature. -/
structure OpCtx where
  key : Nat
  mechanism : Nat
  pParameter : CtxPtr
  ulParameterLen : Nat
  context : CtxPtr
  contextLen : Nat
  contextFreeFunc : Nat
  flags : List UInt8
  savedSignature : CtxPtr
  savedSignatureLen : Nat
  deriving DecidableEq, Repr

def OpCtx.active (k : OpKind) (c : OpCtx) : UInt8 := c.flags.getD k.activeFlag 0

def OpCtx.stateUnsaveable (k : OpKind) (c : OpCtx) : UInt8 := c.flags.getD k.unsaveableFlag 0

/-- The members of a `SESSION` that the two functions use. -/
structure OpSession where
  state : Nat
  findActive : Bool
  ctx : OpKind → OpCtx

def OpSession.setCtx (s : OpSession) (k : OpKind) (c : OpCtx) : OpSession :=
  { s with ctx := Function.update s.ctx k c }

/-- What the token and the library put into a header, and the addresses of the pointers. -/
structure OpEnv where
  order : ByteOrder
  /-- `PACKAGE_VERSION`, without the terminating zero. -/
  packageVersion : List UInt8
  manufacturerID : List UInt8
  model : List UInt8
  addr : CtxPtr → Nat
  addr_null : addr .null = 0
  packageVersion_ne_zero : ∀ b ∈ packageVersion, b ≠ 0
  length_manufacturerID : manufacturerID.length = MANUFACTURER_ID_LEN
  length_model : model.length = MODEL_LEN

/-! ### `session_mgr_get_op_state` -/

/-- A `CK_ULONG` or a pointer in memory. -/
def OpEnv.word (env : OpEnv) (v : Nat) : List UInt8 := wordBytes env.order 8 v

/-- `strncpy` to a field of `n` bytes that has been set to zero. -/
def strncpy (n : Nat) (s : List UInt8) : List UInt8 := (s ++ List.replicate n 0).take n

/-- The header of a record. -/
def opStateData (env : OpEnv) (state : Nat) (k : OpKind) (dataLen : Nat) : List UInt8 :=
  strncpy LIBRARY_VERSION_LEN env.packageVersion ++ (env.manufacturerID ++ (env.model ++
    (env.word state ++ (env.word k.code ++ env.word dataLen))))

/-- The context as it lies in memory. The flags of a `DIGEST_CONTEXT` and of a
`SIGN_VERIFY_CONTEXT` are followed by padding. -/
def ctxImage (env : OpEnv) (k : OpKind) (c : OpCtx) : List UInt8 :=
  let key := if k = .digest then [] else env.word c.key
  let tail := match k with
    | .encr | .decr   => []
    | .digest         => List.replicate 3 0
    | .sign | .verify =>
        List.replicate 7 0 ++ (env.word (env.addr c.savedSignature) ++ env.word c.savedSignatureLen)
  key ++ (env.word c.mechanism ++ (env.word (env.addr c.pParameter) ++ (env.word c.ulParameterLen ++
    (env.word (env.addr c.context) ++ (env.word c.contextLen ++ (env.word c.contextFreeFunc ++
      (c.flags ++ tail)))))))

/-- `memcpy` of `n` bytes from a pointer, which is skipped when `n` is zero. -/
def readPtr (p : CtxPtr) (n : Nat) : Except Stop (List UInt8) :=
  if n = 0 then .ok []
  else match p with
    | .heap bytes      => access (readAt bytes 0 n)
    | .null | .wild _  => .error .fault

/-- The length of the saved signature in a record: only a verify operation saves it. -/
def OpCtx.recordSignatureLen (k : OpKind) (c : OpCtx) : Nat :=
  if k = .verify then c.savedSignatureLen else 0

/-- `op_data_len`. -/
def opDataLen (k : OpKind) (c : OpCtx) : Nat :=
  ulongAdd (ulongAdd (ulongAdd (SIZEOF_OP_STATE_DATA + k.sizeofCtx) c.contextLen) c.ulParameterLen)
    (c.recordSignatureLen k)

/-- The record of an operation. -/
def opRecord (env : OpEnv) (state : Nat) (k : OpKind) (c : OpCtx) : Except Stop (List UInt8) := do
  let context ← readPtr c.context c.contextLen
  let param ← readPtr c.pParameter c.ulParameterLen
  let signature ← readPtr c.savedSignature (c.recordSignatureLen k)
  return opStateData env state k (ulongSub (opDataLen k c) SIZEOF_OP_STATE_DATA) ++
    (ctxImage env k c ++ (context ++ (param ++ signature)))

/-- The variables of `session_mgr_get_op_state`: the caller's buffer, where `data` points to in it,
and the counters. -/
structure SaveState where
  buf : List UInt8
  data : Nat
  maxDataLen : Nat
  allDataLen : Nat
  activeOps : Nat
  deriving Repr

def TRUE : UInt8 := 1

/-- Count an active operation. -/
def SaveState.count (st : SaveState) (k : OpKind) (c : OpCtx) : SaveState :=
  { st with
    activeOps := st.activeOps + 1
    allDataLen := ulongAdd st.allDataLen (opDataLen k c) }

/-- Write the record of an operation to the caller's buffer. -/
def writeRecord (env : OpEnv) (state : Nat) (st : SaveState) (k : OpKind) (c : OpCtx) :
    Except Stop SaveState := do
  check (opDataLen k c ≤ st.maxDataLen) .bufferTooSmall
  let record ← opRecord env state k c
  let buf ← access (writeAt st.buf st.data record)
  return { st with
    buf := buf
    data := st.data + opDataLen k c
    maxDataLen := st.maxDataLen - opDataLen k c }

/-- The part of `session_mgr_get_op_state` for one operation. -/
def saveOp (env : OpEnv) (s : OpSession) (lengthOnly : Bool) (st : SaveState) (k : OpKind) :
    Except Stop SaveState :=
  let c := s.ctx k
  if c.active k = TRUE then
    if c.stateUnsaveable k ≠ 0 then .error (.rc .stateUnsaveable)
    else if lengthOnly then .ok (st.count k c)
    else writeRecord env s.state (st.count k c) k c
  else .ok st

/-- `session_mgr_get_op_state` with the caller's buffer. It gives the buffer after the call and
`*data_len`. -/
def sessionMgrGetOpState (env : OpEnv) (s : OpSession) (lengthOnly : Bool) (buf : List UInt8) :
    Except Stop (List UInt8 × Nat) := do
  check (s.findActive = false) .stateUnsaveable
  let st ← OpKind.all.foldlM (saveOp env s lengthOnly) ⟨buf, 0, buf.length, 0, 0⟩
  check (st.activeOps ≠ 0) .operationNotInitialized
  return (st.buf, st.allDataLen)

/-! ### `session_mgr_set_op_state` -/

/-- The keys that the caller gives. `0` is `CK_INVALID_HANDLE`. -/
structure OpKeys where
  encrKey : Nat
  authKey : Nat
  deriving DecidableEq, Repr

def CK_INVALID_HANDLE : Nat := 0

/-- Read a `CK_ULONG` of the blob. -/
def readWord (env : OpEnv) (data : List UInt8) (off : Nat) : Except Stop Nat := do
  let bytes ← access (readAt data off 8)
  return wordValue env.order bytes

/-- The lengths in a context of the blob. -/
structure CtxLens where
  contextLen : Nat
  ulParameterLen : Nat
  savedSignatureLen : Nat
  deriving DecidableEq, Repr

/-- `len` of `session_mgr_set_op_state`. -/
def CtxLens.total (k : OpKind) (l : CtxLens) : Nat :=
  ulongAdd (ulongAdd (ulongAdd k.sizeofCtx l.contextLen) l.ulParameterLen) l.savedSignatureLen

/-- Read a member that only a `SIGN_VERIFY_CONTEXT` has. -/
def readSignatureWord (env : OpEnv) (data : List UInt8) (k : OpKind) (off : Nat) :
    Except Stop Nat :=
  if k.isSignVerify then readWord env data off else .ok 0

/-- Read the lengths in the context at `ctx`. -/
def readLens (env : OpEnv) (data : List UInt8) (k : OpKind) (ctx : Nat) : Except Stop CtxLens := do
  let contextLen ← readWord env data (ctx + k.mechOffset + 32)
  let ulParameterLen ← readWord env data (ctx + k.mechOffset + 16)
  let savedSignatureLen ← readSignatureWord env data k (ctx + 80)
  return ⟨contextLen, ulParameterLen, savedSignatureLen⟩

/-- `strncmp` of a field of `n` bytes with a string is zero. -/
def strncmpEq (n : Nat) (field s : List UInt8) : Prop := field.takeWhile (· ≠ 0) = s.take n

/-- `strncmp` can be evaluated. -/
instance (n : Nat) (field s : List UInt8) : Decidable (strncmpEq n field s) :=
  inferInstanceAs (Decidable (_ = _))

/-- The identity checks on a header: the library version, the token and the session state. -/
def checkHeader (env : OpEnv) (state : Nat) (data : List UInt8) (cur : Nat) : Except Stop Unit := do
  let version ← access (readAt data cur LIBRARY_VERSION_LEN)
  check (strncmpEq LIBRARY_VERSION_LEN version env.packageVersion) .savedStateInvalid
  let manufacturerID ← access (readAt data (cur + 16) MANUFACTURER_ID_LEN)
  check (manufacturerID = env.manufacturerID) .savedStateInvalid
  let model ← access (readAt data (cur + 48) MODEL_LEN)
  check (model = env.model) .savedStateInvalid
  let sessionState ← readWord env data (cur + 64)
  check (state = sessionState) .savedStateInvalid

/-- A record as both walks see it: its operation, `op_data->data_len` and its lengths. -/
structure RecordHead where
  kind : OpKind
  dataLen : Nat
  lens : CtxLens
  deriving DecidableEq, Repr

/-- How far `cur_data` moves. -/
def RecordHead.advance (r : RecordHead) : Nat := ulongAdd r.dataLen SIZEOF_OP_STATE_DATA

/-- `op_data->data_len` of the record at `cur`, which must fit into the rest of the blob. -/
def readDataLen (env : OpEnv) (data : List UInt8) (cur curDataLen : Nat) : Except Stop Nat := do
  let dataLen ← readWord env data (cur + 80)
  check (ulongAdd dataLen SIZEOF_OP_STATE_DATA ≤ curDataLen) .savedStateInvalid
  return dataLen

/-- The operation of the record at `cur` and its lengths, which must add up to `data_len`. -/
def readBody (env : OpEnv) (data : List UInt8) (cur dataLen : Nat) : Except Stop RecordHead := do
  let code ← readWord env data (cur + 72)
  match OpKind.ofCode code with
  | none      => .error (.rc .savedStateInvalid)
  | some kind =>
      let lens ← readLens env data kind (cur + SIZEOF_OP_STATE_DATA)
      check (lens.total kind = dataLen) .savedStateInvalid
      return ⟨kind, dataLen, lens⟩

/-- The checks on one record in the first walk. -/
def validateRecord (env : OpEnv) (state : Nat) (data : List UInt8) (cur curDataLen : Nat) :
    Except Stop RecordHead := do
  let dataLen ← readDataLen env data cur curDataLen
  checkHeader env state data cur
  readBody env data cur dataLen

/-- How many records need the encryption key and the authentication key. -/
structure KeysNeeded where
  encr : Nat
  auth : Nat
  deriving DecidableEq, Repr

def KeysNeeded.count (n : KeysNeeded) : OpKind → KeysNeeded
  | .encr | .decr   => { n with encr := n.encr + 1 }
  | .sign | .verify => { n with auth := n.auth + 1 }
  | .digest         => n

/-- The first walk. -/
def validate (env : OpEnv) (state : Nat) (data : List UInt8) :
    Nat → Nat → KeysNeeded → Option (Except Stop KeysNeeded)
  | 0,        _,   _      => none
  | fuel + 1, cur, needed =>
      if SIZEOF_OP_STATE_DATA ≤ data.length - cur then
        match validateRecord env state data cur (data.length - cur) with
        | .error stop => some (.error stop)
        | .ok r       => validate env state data fuel (cur + r.advance) (needed.count r.kind)
      -- nothing must be left over
      else if 0 < data.length - cur then some (.error (.rc .savedStateInvalid))
      else some (.ok needed)

/-- The checks on the keys. -/
def checkKeys (needed : KeysNeeded) (keys : OpKeys) : Except Stop Unit := do
  check (0 < needed.encr → keys.encrKey ≠ CK_INVALID_HANDLE) .keyNeeded
  check (needed.encr = 0 → keys.encrKey = CK_INVALID_HANDLE) .keyNotNeeded
  check (0 < needed.auth → keys.authKey ≠ CK_INVALID_HANDLE) .keyNeeded
  check (needed.auth = 0 → keys.authKey = CK_INVALID_HANDLE) .keyNotNeeded

/-- `encr_mgr_cleanup`, `decr_mgr_cleanup`, `digest_mgr_cleanup`, `sign_mgr_cleanup` and
`verify_mgr_cleanup`: the context after the call. `encr_mgr_cleanup` and `verify_mgr_cleanup` leave
`auth_required`, their last flag. What they free, and the call of `context_free_func`, is not
modelled: the contexts are taken to be those of the library. -/
def opCleanup (k : OpKind) (c : OpCtx) : OpCtx where
  key := 0
  mechanism := 0
  pParameter := .null
  ulParameterLen := 0
  context := .null
  contextLen := 0
  contextFreeFunc := 0
  flags := match k with
    | .encr                   => List.replicate 7 0 ++ c.flags.drop 7
    | .verify                 => List.replicate 8 0 ++ c.flags.drop 8
    | .decr | .digest | .sign => List.replicate k.flagCount 0
  savedSignature := .null
  savedSignatureLen := 0

/-- Clean up the active operations. -/
def OpSession.cleanup (s : OpSession) : OpSession :=
  { s with ctx := fun k => if (s.ctx k).active k ≠ 0 then opCleanup k (s.ctx k) else s.ctx k }

/-- `malloc` and `memcpy` of `n` bytes of the blob, which are skipped when `n` is zero. -/
def copyOut (mallocOk : Bool) (data : List UInt8) (off n : Nat) : Except Stop CtxPtr :=
  if n = 0 then .ok .null
  else if mallocOk then do
    let bytes ← access (readAt data off n)
    return .heap bytes
  else .error (.rc .hostMemory)

/-- The saved signature is copied for a verify operation only. -/
def copySignature (mallocOk : Bool) (data : List UInt8) (k : OpKind) (off n : Nat) :
    Except Stop CtxPtr :=
  if k = .verify then copyOut mallocOk data off n else .ok .null

/-- The three copies that a record may need. -/
inductive CopySite
  | context
  | mechParam
  | savedSignature
  deriving DecidableEq, Repr

/-- What `malloc` answers for a copy of the record at an offset. -/
abbrev Malloc := Nat → CopySite → Bool

/-- The context at `ctx` of the blob, with the key and the pointers that replace those in the
blob. The saved signature of a sign operation is not replaced. -/
def readCtx (env : OpEnv) (data : List UInt8) (k : OpKind) (lens : CtxLens) (key ctx : Nat)
    (context mechParam savedSignature : CtxPtr) : Except Stop OpCtx := do
  let image ← access (readAt data ctx k.sizeofCtx)
  let mechanism ← readWord env image k.mechOffset
  let contextFreeFunc ← readWord env image (k.mechOffset + 40)
  let flags ← access (readAt image (k.mechOffset + 48) k.flagCount)
  let address ← readSignatureWord env image k 72
  return {
    key := if k = .digest then 0 else key
    mechanism := mechanism
    pParameter := mechParam
    ulParameterLen := lens.ulParameterLen
    context := context
    contextLen := lens.contextLen
    contextFreeFunc := contextFreeFunc
    flags := flags
    savedSignature := match k with
      | .sign                     => if address = 0 then .null else .wild address
      | .verify                   => savedSignature
      | .encr | .decr | .digest   => .null
    savedSignatureLen := lens.savedSignatureLen }

/-- The key of an operation. -/
def OpKeys.of (keys : OpKeys) : OpKind → Nat
  | .encr | .decr   => keys.encrKey
  | .sign | .verify => keys.authKey
  | .digest         => 0

/-- Copy the state of one operation into the session. For a sign operation the pointer to the
saved signature of the verify operation is set. -/
def OpSession.store (s : OpSession) (k : OpKind) (c : OpCtx) : OpSession :=
  if k = .sign then
    (s.setCtx .sign c).setCtx .verify { s.ctx .verify with savedSignature := .null }
  else s.setCtx k c

/-- One record of the second walk. It gives the session with the operation restored. -/
def restoreRecord (env : OpEnv) (malloc : Malloc) (keys : OpKeys) (data : List UInt8)
    (cur curDataLen : Nat) (s : OpSession) : Except Stop (RecordHead × OpSession) := do
  let dataLen ← readDataLen env data cur curDataLen
  let r ← readBody env data cur dataLen
  check (r.kind ≠ .digest → keys.of r.kind ≠ CK_INVALID_HANDLE) .keyNeeded
  let ctx := cur + SIZEOF_OP_STATE_DATA
  let ptr2 := ctx + r.kind.sizeofCtx
  let ptr3 := ptr2 + r.lens.contextLen
  let ptr4 := ptr3 + r.lens.ulParameterLen
  let context ← copyOut (malloc cur .context) data ptr2 r.lens.contextLen
  let mechParam ← copyOut (malloc cur .mechParam) data ptr3 r.lens.ulParameterLen
  let savedSignature ←
    copySignature (malloc cur .savedSignature) data r.kind ptr4 r.lens.savedSignatureLen
  let c ← readCtx env data r.kind r.lens (keys.of r.kind) ctx context mechParam savedSignature
  return (r, s.store r.kind c)

/-- What a call of `session_mgr_set_op_state` does that ends: it reads outside the blob, or it
returns and leaves a session. -/
inductive SetResult
  | fault
  | ret (rc : CkRv) (s : OpSession)

/-- The second walk. -/
def restore (env : OpEnv) (malloc : Malloc) (keys : OpKeys) (data : List UInt8) :
    Nat → Nat → OpSession → Option SetResult
  | 0,        _,   _ => none
  | fuel + 1, cur, s =>
      if SIZEOF_OP_STATE_DATA ≤ data.length - cur then
        match restoreRecord env malloc keys data cur (data.length - cur) s with
        | .error .fault   => some .fault
        | .error (.rc rc) => some (.ret rc s)
        | .ok (r, s')     => restore env malloc keys data fuel (cur + r.advance) s'
      else some (.ret .ok s)

/-- `session_mgr_set_op_state`. -/
def sessionMgrSetOpState (env : OpEnv) (malloc : Malloc) (s : OpSession) (keys : OpKeys)
    (data : List UInt8) (fuel : Nat) : Option SetResult :=
  match validate env s.state data fuel 0 ⟨0, 0⟩ with
  | none                    => none
  | some (.error .fault)    => some .fault
  | some (.error (.rc rc))  => some (.ret rc s)
  | some (.ok needed)       =>
      match checkKeys needed keys with
      | .error .fault   => some .fault
      | .error (.rc rc) => some (.ret rc s)
      | .ok ()          => restore env malloc keys data fuel 0 s.cleanup

end OpenCryptoki.Common
