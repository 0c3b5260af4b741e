import OpenCryptoki.Ncmp.Slot

/-!
# `OpenCryptoki.Ncmp.CommThread`: the communication thread of a slot

The model of `ncmp/daemon/comm_thread.c`. The thread alternates between `comm_dispatch`,
which sends POSTED requests while the in-flight count is below its limit, and
`comm_drain`, which collects one response and routes it to its entry. As for the
producers, each step is one access to shared memory or one operation of the transport,
and a copy takes any number of steps.

The transport is a parameter. `Transport` has the two operations that the thread uses;
each takes a choice, so that a transport may answer in any order or fail at any time.
-/

set_option autoImplicit false

namespace OpenCryptoki.Ncmp

open Lib

/-- The operations of `ncmp_transport.h` as the communication thread uses them. An
operation returns `none` when its choice is not possible in the state. `send` is told
which call holds the entry of the frame; a transport may record it but has no other use
for it. -/
structure Transport (σ : Type) where
  SendChoice : Type
  RecvChoice : Type
  send : σ → Option Call → List UInt8 → SendChoice → Option (σ × NcmpRc)
  recv : σ → RecvChoice → Option (σ × Except NcmpRc (List UInt8))
  /-- A received frame fits the receive buffer. -/
  length_recv_le : ∀ {s s' : σ} {ch : RecvChoice} {rx : List UInt8},
    recv s ch = some (s', .ok rx) → rx.length ≤ NCMP_MAX_FRAME_SIZE
  /-- The number of frames that were accepted and not yet answered. -/
  pending : σ → Nat

/-- The counters of a slot. -/
structure SlotStats where
  inFlightCnt : UInt32
  statsMaxInFlight : UInt32
  statsTotalSentCmds : UInt64
  deriving DecidableEq, Repr

def commReserveInflight (st : SlotStats) : SlotStats :=
  let after := st.inFlightCnt + 1
  { inFlightCnt := st.inFlightCnt + 1
    statsMaxInFlight := if after > st.statsMaxInFlight then after else st.statsMaxInFlight
    statsTotalSentCmds := st.statsTotalSentCmds + 1 }

def commReleaseInflight (st : SlotStats) : SlotStats :=
  { st with inFlightCnt := st.inFlightCnt - 1 }

/-- Where the communication thread stands. -/
inductive CommPc
  /-- About to test the loop condition of `comm_dispatch`. -/
  | dispatch
  /-- `comm_take_posted`: about to load the state of entry `i`. -/
  | takeLoad (i : Nat)
  /-- `comm_take_posted`: saw POSTED, about to swap it to SENT. -/
  | takeSwap (i : Fin NCMP_QUEUE_DEPTH)
  /-- About to call `comm_reserve_inflight`. -/
  | reserve (i : Fin NCMP_QUEUE_DEPTH)
  /-- About to read `req_len`. -/
  | readLen (i : Fin NCMP_QUEUE_DEPTH)
  /-- `ncmp_transport_send` has read `got` of the `len` bytes of the request. -/
  | sending (i : Fin NCMP_QUEUE_DEPTH) (len : Nat) (got : List UInt8)
  /-- The send failed, about to release the reservation. -/
  | sendFailed (i : Fin NCMP_QUEUE_DEPTH)
  /-- About to swap SENT back to POSTED. -/
  | requeue (i : Fin NCMP_QUEUE_DEPTH)
  /-- About to test the in-flight count in `comm_drain`. -/
  | drain
  /-- About to receive. -/
  | recv
  /-- `comm_match_sent`: about to load the state of entry `i`. -/
  | matchState (rx : List UInt8) (hdr : NcmpHeader) (i : Nat)
  /-- `comm_match_sent`: saw SENT, about to compare `owner_sess`. -/
  | matchOwner (rx : List UInt8) (hdr : NcmpHeader) (i : Fin NCMP_QUEUE_DEPTH)
  /-- `comm_match_sent`: about to compare `sequence_id`. -/
  | matchSequence (rx : List UInt8) (hdr : NcmpHeader) (i : Fin NCMP_QUEUE_DEPTH)
  /-- No entry matched, about to release the reservation. -/
  | unmatched
  /-- The first `k` bytes of the response are copied. -/
  | copy (rx : List UInt8) (i : Fin NCMP_QUEUE_DEPTH) (k : Nat)
  /-- About to set `rsp_len`. -/
  | setLen (rx : List UInt8) (i : Fin NCMP_QUEUE_DEPTH)
  /-- About to release the reservation of a delivered response. -/
  | release (rx : List UInt8) (i : Fin NCMP_QUEUE_DEPTH)
  /-- About to swap SENT to DONE. -/
  | publish (rx : List UInt8) (i : Fin NCMP_QUEUE_DEPTH)
  /-- That failed, about to swap ABANDONED to FREE. -/
  | takeBack (i : Fin NCMP_QUEUE_DEPTH)
  deriving DecidableEq

/-- The state of a slot, its communication thread and its producers. -/
structure Sys (σ P C : Type) where
  slotId : Nat
  ring : SlotRing P
  stats : SlotStats
  maxInflight : UInt32
  transport : σ
  comm : CommPc
  prod : P → ProdPc
  clients : C → NcmpClient
  nextId : Nat

/-- What the scheduler chooses for a step of the communication thread: how many bytes a
copy moves, or what the transport does. -/
inductive CommChoice {σ : Type} (T : Transport σ)
  | go (n : Nat)
  | send (ch : T.SendChoice)
  | recv (ch : T.RecvChoice)

section Steps

variable {σ P C : Type}

/-- A turn of the loop of `comm_take_posted`. When no entry is left the dispatch phase is
over. -/
def commTakePosted (ring : SlotRing P) (i : Nat) : CommPc :=
  if h : i < NCMP_QUEUE_DEPTH then
    if (ring ⟨i, h⟩).state = .posted then .takeSwap ⟨i, h⟩ else .takeLoad (i + 1)
  else .drain

/-- A turn of the loop of `comm_match_sent`, up to the load of the state. -/
def commMatchSent (ring : SlotRing P) (rx : List UInt8) (hdr : NcmpHeader) (i : Nat) : CommPc :=
  if h : i < NCMP_QUEUE_DEPTH then
    if (ring ⟨i, h⟩).state = .sent then .matchOwner rx hdr ⟨i, h⟩
    else .matchState rx hdr (i + 1)
  else .unmatched

/-- The read of `n` more bytes of the request by `ncmp_transport_send`. -/
def sendChunk (n : Nat) (ring : SlotRing P) (i : Fin NCMP_QUEUE_DEPTH) (len : Nat)
    (got : List UInt8) : CommPc :=
  .sending i len (got ++ (ring i).req.read got.length (min n (len - got.length)))

/-- What `comm_drain` does with the outcome of `ncmp_transport_recv`. -/
def commReceived : Except NcmpRc (List UInt8) → CommPc
  | .error _ => .dispatch
  | .ok rx =>
      match ncmpWireDecodeHeader rx ⟨0, 0, 0, 0, 0⟩ with
      | (.ok, hdr) => .matchState rx hdr 0
      | _ => .dispatch

/-- A swap of the state of entry `i`, which also sets the holders to `hs`. -/
def Sys.swap (s : Sys σ P C) (i : Fin NCMP_QUEUE_DEPTH) (old new : QState)
    (hs : List (Holder P)) : Sys σ P C :=
  if (s.ring i).state = old then
    { s with ring := Function.update s.ring i { s.ring i with state := new, holders := hs } }
  else s

/-- A step of the communication thread other than an operation of the transport. A copy
moves up to `n` bytes. -/
def commGo (n : Nat) (s : Sys σ P C) : CommPc → Option (Sys σ P C)
  | .dispatch =>
      some { s with comm := if s.stats.inFlightCnt < s.maxInflight then .takeLoad 0 else .drain }
  | .takeLoad i => some { s with comm := commTakePosted s.ring i }
  | .takeSwap i =>
      some { s.swap i .posted .sent (s.ring i).holders with
        comm := if (s.ring i).state = .posted then .reserve i else .takeLoad (i + 1) }
  | .reserve i => some { s with stats := commReserveInflight s.stats, comm := .readLen i }
  | .readLen i => some { s with comm := .sending i (s.ring i).reqLen.toNat [] }
  | .sending i len got =>
      if got.length < len then some { s with comm := sendChunk n s.ring i len got } else none
  | .sendFailed i => some { s with stats := commReleaseInflight s.stats, comm := .requeue i }
  | .requeue i => some { s.swap i .sent .posted (s.ring i).holders with comm := .drain }
  | .drain => some { s with comm := if s.stats.inFlightCnt = 0 then .dispatch else .recv }
  | .recv => none
  | .matchState rx hdr i => some { s with comm := commMatchSent s.ring rx hdr i }
  | .matchOwner rx hdr i =>
      some { s with comm :=
        if (s.ring i).ownerSess = hdr.sessionId then .matchSequence rx hdr i
        else .matchState rx hdr (i + 1) }
  | .matchSequence rx hdr i =>
      some { s with comm :=
        if (s.ring i).sequenceId = hdr.sequenceId then .copy rx i 0
        else .matchState rx hdr (i + 1) }
  | .unmatched => some { s with stats := commReleaseInflight s.stats, comm := .dispatch }
  | .copy rx i k =>
      if k < rx.length then
        let chunk := (rx.drop k).take n
        some { s with
          ring := Function.update s.ring i { s.ring i with rsp := (s.ring i).rsp.write k chunk }
          comm := .copy rx i (k + chunk.length) }
      else some { s with comm := .setLen rx i }
  | .setLen rx i =>
      some { s with
        ring := Function.update s.ring i { s.ring i with rspLen := UInt32.ofNat rx.length }
        comm := .release rx i }
  | .release rx i => some { s with stats := commReleaseInflight s.stats, comm := .publish rx i }
  | .publish _ i =>
      some { s.swap i .sent .done (s.ring i).holders with
        comm := if (s.ring i).state = .sent then .dispatch else .takeBack i }
  | .takeBack i =>
      some { s.swap i .abandoned .free (s.ring i).dropAbandoned with comm := .dispatch }

/-- The end of `ncmp_transport_send`, once it has read the whole request. -/
def commSend (T : Transport σ) (ch : T.SendChoice) (s : Sys σ P C) :
    CommPc → Option (Sys σ P C)
  | .sending i len got =>
      if got.length < len then none
      else
        (T.send s.transport ((s.ring i).holders.head?.map Holder.call) got ch).map fun r =>
          { s with
            transport := r.1
            comm := if r.2 = .ok then .dispatch else .sendFailed i }
  | _ => none

/-- `ncmp_transport_recv`. -/
def commRecv (T : Transport σ) (ch : T.RecvChoice) (s : Sys σ P C) :
    CommPc → Option (Sys σ P C)
  | .recv =>
      (T.recv s.transport ch).map fun r =>
        { s with transport := r.1, comm := commReceived r.2 }
  | _ => none

/-- The next step of the communication thread. -/
def commStep (T : Transport σ) (s : Sys σ P C) : CommChoice T → Option (Sys σ P C)
  | .go n => commGo n s s.comm
  | .send ch => commSend T ch s s.comm
  | .recv ch => commRecv T ch s s.comm

end Steps

/-! ### The system -/

/-- One step of the system: a producer that is not in a call starts one, a producer in a
call moves on, or the communication thread does. -/
inductive Action {σ : Type} (T : Transport σ) (P C : Type)
  | start (p : P) (r : Request C)
  | prod (p : P) (n : Nat)
  | comm (ch : CommChoice T)

/-- The producer is not in a call. -/
def ProdPc.isResting : ProdPc → Bool
  | .idle | .returned _ _ | .rejected _ => true
  | _ => false

section System

variable {σ P C : Type}

def Sys.step [DecidableEq P] [DecidableEq C] (T : Transport σ) (s : Sys σ P C) :
    Action T P C → Option (Sys σ P C)
  | .start p r =>
      if (s.prod p).isResting then
        let r := startCall s.slotId s.nextId s.clients r
        some { s with
          clients := r.1
          prod := Function.update s.prod p r.2
          nextId := s.nextId + 1 }
      else none
  | .prod p n =>
      (prodStep p n s.ring (s.prod p)).map fun r =>
        { s with ring := r.1, prod := Function.update s.prod p r.2 }
  | .comm ch => commStep T s ch

/-- The states in which a slot starts, after `ncmp_shm_create`: no entry is in use, nobody is
in a call and the counters are zero. The contents of the buffers are arbitrary. -/
structure Sys.Initial (s : Sys σ P C) : Prop where
  free : ∀ i, (s.ring i).state = .free
  unheld : ∀ i, (s.ring i).holders = []
  idle : ∀ p, s.prod p = .idle
  comm : s.comm = .dispatch
  stats : s.stats = ⟨0, 0, 0⟩
  maxInflight : s.maxInflight = 4
  clients : ∀ c, (s.clients c).seq = 0

/-- A slot after `ncmp_shm_create`, with zeroed buffers and with clients that see the slots of
`slotMask`. -/
def Sys.create (t : σ) (slotId : Nat) (slotMask : UInt32) : Sys σ P C where
  slotId := slotId
  ring := fun _ =>
    { state := .free, ownerSess := 0, sequenceId := 0, reqLen := 0, rspLen := 0
      req := fun _ => 0, rsp := fun _ => 0, holders := [] }
  stats := ⟨0, 0, 0⟩
  maxInflight := 4
  transport := t
  comm := .dispatch
  prod := fun _ => .idle
  clients := fun _ => ncmpClientInit slotMask
  nextId := 0

/-- A system that has just been created is initial. -/
theorem Sys.create_initial (t : σ) (slotId : Nat) (slotMask : UInt32) :
    (Sys.create t slotId slotMask : Sys σ P C).Initial where
  free _ := rfl
  unheld _ := rfl
  idle _ := rfl
  comm := rfl
  stats := rfl
  maxInflight := rfl
  clients _ := rfl

end System

/-! ### A token that answers in any order -/

/-- The frames that the token has received and not answered, and the answers it has given:
the call that held the entry of a frame, the frame, and the response. -/
structure TokenState where
  outstanding : List (Option Call × List UInt8)
  answers : List (Option Call × List UInt8 × List UInt8)

/-- A send succeeds, or fails before the token receives the frame. -/
inductive TokenSend
  | accept
  | refuse (rc : NcmpRc)

/-- A receive fails, or brings the response `rx` to the `k`-th outstanding frame. -/
inductive TokenRecv
  | fail (rc : NcmpRc)
  | answer (k : Nat) (rx : List UInt8)

/-- The response copies the `session_id` and the `sequence_id` of the frame. -/
def CopiesIds (frame rx : List UInt8) : Prop :=
  getU32le (rx.drop 4) = getU32le (frame.drop 4) ∧ getU32le (rx.drop 8) = getU32le (frame.drop 8)

/-- The ids of a frame can be compared. -/
instance (frame rx : List UInt8) : Decidable (CopiesIds frame rx) :=
  inferInstanceAs (Decidable (_ ∧ _))

def tokenSend (st : TokenState) (c : Option Call) (frame : List UInt8) :
    TokenSend → Option (TokenState × NcmpRc)
  | .accept => some ({ st with outstanding := st.outstanding ++ [(c, frame)] }, .ok)
  | .refuse rc => if rc = .ok then none else some (st, rc)

def tokenRecv (st : TokenState) : TokenRecv → Option (TokenState × Except NcmpRc (List UInt8))
  | .fail rc => some (st, .error rc)
  | .answer k rx =>
      match st.outstanding[k]? with
      | none => none
      | some (c, frame) =>
          if rx.length ≤ NCMP_MAX_FRAME_SIZE ∧ CopiesIds frame rx then
            some (⟨st.outstanding.eraseIdx k, (c, frame, rx) :: st.answers⟩, .ok rx)
          else none

/-- A token that answers every frame it received at most once, in any order and with any
response that copies the frame's ids. -/
def token : Transport TokenState where
  SendChoice := TokenSend
  RecvChoice := TokenRecv
  send := tokenSend
  recv := tokenRecv
  length_recv_le := by
    intro s s' ch rx h
    cases ch with
    | fail rc => cases h
    | answer k rx' =>
      rw [tokenRecv] at h
      split at h
      · cases h
      · split at h
        · rename_i hrx
          cases h
          exact hrx.1
        · cases h
  pending st := st.outstanding.length

/-- A slot with a token that has not received anything. -/
def Sys.withToken {P C : Type} : Sys TokenState P C :=
  Sys.create ⟨[], []⟩ 0 1

end OpenCryptoki.Ncmp
