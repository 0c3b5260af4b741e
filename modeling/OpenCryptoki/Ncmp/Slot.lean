import OpenCryptoki.Ncmp.Wire

/-!
# `OpenCryptoki.Ncmp.Slot`: the command ring of a slot and its producers

The model of `ncmp/include/ncmp/ncmp_queue.h`, `ncmp/common/ncmp_queue.c`,
`ncmp/common/ncmp_slot.c` and of the calls of `ncmp/stdll/ncmp_client.c` that use them.

A ring entry lives in memory that all parties share. Every atomic operation on its state
is one step, and so is every plain access to one of its fields. A copy into or out of a
buffer is any number of steps: each one moves as many bytes as the scheduler says, so
that the other parties may run between any two bytes of it. A producer is therefore a
program counter, `ProdPc`, and `prodStep` is the one step that it takes next.

An entry carries one field that the source does not have: `holders` records which calls
stand between their successful claim and the release of the entry. It is written where
the source claims, abandons or releases an entry, and no step depends on it.
-/

set_option autoImplicit false

namespace OpenCryptoki.Ncmp

open Lib

/-! ### Ring entries -/

/-- Number of entries in each slot's command ring. -/
abbrev NCMP_QUEUE_DEPTH : Nat := 32

/-- Size of the request and of the response buffer of an entry. -/
def NCMP_ENTRY_BUF_SIZE : Nat := NCMP_MAX_FRAME_SIZE

inductive QState
  | free
  | claimed
  | posted
  | sent
  | done
  | abandoned
  deriving DecidableEq, Repr

/-- A ring entry with the buffers that its offsets `req_off` and `rsp_off` designate. -/
structure QEntry where
  state : QState
  ownerSess : UInt32
  sequenceId : UInt32
  reqLen : UInt32
  rspLen : UInt32
  req : Buf
  rsp : Buf

/-- One call of `ncmp_slot_enqueue` followed by `ncmp_slot_wait`, with the arguments of
both. `id` numbers the calls of a run. -/
structure Call where
  id : Nat
  sessionId : UInt32
  sequenceId : UInt32
  req : NcmpMessage
  rsp : NcmpMessage
  spinBudget : UInt64

/-- A call that has claimed an entry and whose claim has not been released. -/
structure Holder (P : Type) where
  proc : P
  call : Call
  abandoned : Bool

/-- A ring entry and the calls that hold it. -/
structure Cell (P : Type) extends QEntry where
  holders : List (Holder P)

abbrev SlotRing (P : Type) := Fin NCMP_QUEUE_DEPTH → Cell P

namespace Cell

variable {P : Type}

/-- The holders once call `c` has released the entry. -/
def dropHolder (x : Cell P) (c : Call) : List (Holder P) :=
  x.holders.filter fun h => h.call.id ≠ c.id

/-- The holders once call `c` has abandoned the entry. -/
def markAbandoned (x : Cell P) (c : Call) : List (Holder P) :=
  x.holders.map fun h => if h.call.id = c.id then { h with abandoned := true } else h

/-- The holders once the communication thread has taken the entry back. -/
def dropAbandoned (x : Cell P) : List (Holder P) :=
  x.holders.filter fun h => !h.abandoned

end Cell

/-! ### Producers -/

/-- The fields that `ncmp_slot_enqueue` sets after the encoding, in this order. -/
inductive EntryField
  | ownerSess
  | sequenceId
  | reqLen
  | rspLen
  deriving DecidableEq, Repr

/-- What a call returned: an error, or the response frame that it read and the message
that `ncmp_wire_decode` made of it. -/
abbrev CallResult := Except NcmpRc (List UInt8 × NcmpMessage)

/-- Where a producer stands in `ncmp_slot_enqueue` and `ncmp_slot_wait`. -/
inductive ProdPc
  | idle
  /-- About to compare-and-swap entry `i` from FREE to CLAIMED. -/
  | claim (c : Call) (i : Nat)
  /-- The first `k` bytes of the frame are written. -/
  | encode (c : Call) (i : Fin NCMP_QUEUE_DEPTH) (frame : List UInt8) (k : Nat)
  /-- About to set a field. -/
  | store (c : Call) (i : Fin NCMP_QUEUE_DEPTH) (frame : List UInt8) (f : EntryField)
  /-- About to swap CLAIMED to POSTED. -/
  | post (c : Call) (i : Fin NCMP_QUEUE_DEPTH)
  /-- About to swap CLAIMED back to FREE and to return `rc`. -/
  | rollback (c : Call) (i : Fin NCMP_QUEUE_DEPTH) (rc : NcmpRc)
  /-- About to load the state in the loop condition of `ncmp_slot_wait`. -/
  | waitLoad (c : Call) (i : Fin NCMP_QUEUE_DEPTH) (spins : UInt64)
  /-- Out of budget, about to swap SENT to ABANDONED. -/
  | giveUpSent (c : Call) (i : Fin NCMP_QUEUE_DEPTH)
  /-- That failed, about to swap POSTED to ABANDONED. -/
  | giveUpPosted (c : Call) (i : Fin NCMP_QUEUE_DEPTH)
  /-- That failed too, about to load the state once more. -/
  | giveUpCheck (c : Call) (i : Fin NCMP_QUEUE_DEPTH)
  /-- Saw DONE, about to read `rsp_len`. -/
  | readLen (c : Call) (i : Fin NCMP_QUEUE_DEPTH)
  /-- Has read `got` of the `len` bytes of the response. -/
  | readRsp (c : Call) (i : Fin NCMP_QUEUE_DEPTH) (len : Nat) (got : List UInt8)
  /-- About to swap DONE to FREE. -/
  | release (c : Call) (i : Fin NCMP_QUEUE_DEPTH) (got : List UInt8)
  | returned (c : Call) (res : CallResult)
  /-- A client command that failed before it reached the ring. -/
  | rejected (rc : NcmpRc)

/-- The assignments `e->owner_sess = session_id; ... e->rsp_len = 0;`. -/
def EntryField.store {P : Type} (f : EntryField) (c : Call) (frame : List UInt8) (x : Cell P) :
    Cell P :=
  match f with
  | .ownerSess => { x with ownerSess := c.sessionId }
  | .sequenceId => { x with sequenceId := c.sequenceId }
  | .reqLen => { x with reqLen := UInt32.ofNat frame.length }
  | .rspLen => { x with rspLen := 0 }

/-- The program counter after field `f` is set. -/
def EntryField.next (f : EntryField) (c : Call) (i : Fin NCMP_QUEUE_DEPTH)
    (frame : List UInt8) : ProdPc :=
  match f with
  | .ownerSess => .store c i frame .sequenceId
  | .sequenceId => .store c i frame .reqLen
  | .reqLen => .store c i frame .rspLen
  | .rspLen => .post c i

section Steps

variable {P : Type}

/-- One turn of the loop of `ncmp_queue_claim`. The frame that `ncmp_wire_encode` is going
to write depends on the caller's message only, so it is known as soon as the entry is
claimed. -/
def ncmpQueueClaim (p : P) (ring : SlotRing P) (c : Call) (i : Nat) : SlotRing P × ProdPc :=
  if h : i < NCMP_QUEUE_DEPTH then
    let x := ring ⟨i, h⟩
    if x.state = .free then
      (Function.update ring ⟨i, h⟩
          { x with state := .claimed, holders := ⟨p, c, false⟩ :: x.holders },
        match ncmpWireEncode c.req NCMP_ENTRY_BUF_SIZE with
        | .ok frame => .encode c ⟨i, h⟩ frame 0
        | .error rc => .rollback c ⟨i, h⟩ rc)
    else (ring, .claim c (i + 1))
  else (ring, .returned c (.error .full))

/-- The write of `n` more bytes of the frame by `ncmp_wire_encode`. -/
def encodeChunk (n : Nat) (ring : SlotRing P) (c : Call) (i : Fin NCMP_QUEUE_DEPTH)
    (frame : List UInt8) (k : Nat) : SlotRing P × ProdPc :=
  if k < frame.length then
    let chunk := (frame.drop k).take n
    (Function.update ring i { ring i with req := (ring i).req.write k chunk },
      .encode c i frame (k + chunk.length))
  else (ring, .store c i frame .ownerSess)

/-- The swap of `ncmp_queue_post`. -/
def ncmpQueuePost (ring : SlotRing P) (c : Call) (i : Fin NCMP_QUEUE_DEPTH) : SlotRing P × ProdPc :=
  if (ring i).state = .claimed then
    (Function.update ring i { ring i with state := .posted }, .waitLoad c i 0)
  else (ring, .rollback c i .state)

/-- The swap from CLAIMED back to FREE on the error paths of `ncmp_slot_enqueue`. -/
def enqueueRollback (ring : SlotRing P) (c : Call) (i : Fin NCMP_QUEUE_DEPTH) (rc : NcmpRc) :
    SlotRing P × ProdPc :=
  (if (ring i).state = .claimed then
      Function.update ring i { ring i with state := .free, holders := (ring i).dropHolder c }
    else ring,
    .returned c (.error rc))

/-- The loop condition of `ncmp_slot_wait` and the test of the spin budget. -/
def waitSpin (ring : SlotRing P) (c : Call) (i : Fin NCMP_QUEUE_DEPTH) (spins : UInt64) : ProdPc :=
  if (ring i).state = .done then .readLen c i
  else if c.spinBudget = 0 then .waitLoad c i spins
  else if spins + 1 > c.spinBudget then .giveUpSent c i
  else .waitLoad c i (spins + 1)

/-- A swap to ABANDONED from state `q`. When it fails the producer goes on at `next`. -/
def waitGiveUp (q : QState) (ring : SlotRing P) (c : Call) (i : Fin NCMP_QUEUE_DEPTH)
    (next : ProdPc) : SlotRing P × ProdPc :=
  if (ring i).state = q then
    (Function.update ring i
        { ring i with state := .abandoned, holders := (ring i).markAbandoned c },
      .returned c (.error .timeout))
  else (ring, next)

/-- The read of `n` more bytes of the response by `ncmp_wire_decode`. -/
def readChunk (n : Nat) (ring : SlotRing P) (c : Call) (i : Fin NCMP_QUEUE_DEPTH) (len : Nat)
    (got : List UInt8) : ProdPc :=
  if got.length < len then
    .readRsp c i len (got ++ (ring i).rsp.read got.length (min n (len - got.length)))
  else .release c i got

/-- The swap from DONE to FREE at the end of `ncmp_slot_wait`. Its outcome is not looked
at, and neither is the return code of `ncmp_wire_decode`. -/
def waitRelease (ring : SlotRing P) (c : Call) (i : Fin NCMP_QUEUE_DEPTH) (got : List UInt8) :
    SlotRing P × ProdPc :=
  (if (ring i).state = .done then
      Function.update ring i { ring i with state := .free, holders := (ring i).dropHolder c }
    else ring,
    .returned c (.ok (got, (ncmpWireDecode got c.rsp).2)))

/-- The next step of producer `p`. A copy moves up to `n` bytes. -/
def prodStep (p : P) (n : Nat) (ring : SlotRing P) : ProdPc → Option (SlotRing P × ProdPc)
  | .idle => none
  | .claim c i => some (ncmpQueueClaim p ring c i)
  | .encode c i frame k => some (encodeChunk n ring c i frame k)
  | .store c i frame f =>
      some (Function.update ring i (f.store c frame (ring i)), f.next c i frame)
  | .post c i => some (ncmpQueuePost ring c i)
  | .rollback c i rc => some (enqueueRollback ring c i rc)
  | .waitLoad c i spins => some (ring, waitSpin ring c i spins)
  | .giveUpSent c i => some (waitGiveUp .sent ring c i (.giveUpPosted c i))
  | .giveUpPosted c i => some (waitGiveUp .posted ring c i (.giveUpCheck c i))
  | .giveUpCheck c i =>
      some (ring, if (ring i).state = .done then .readLen c i else .returned c (.error .timeout))
  | .readLen c i => some (ring, .readRsp c i (ring i).rspLen.toNat [])
  | .readRsp c i len got => some (ring, readChunk n ring c i len got)
  | .release c i got => some (waitRelease ring c i got)
  | .returned _ _ => none
  | .rejected _ => none

end Steps

/-! ### Calls -/

/-- The bound on the wait of a client command. -/
def NCMP_CLIENT_SPIN_BUDGET : UInt64 := 200000000

/-- Maximum number of slots. -/
def PKCS11_MAX_SLOT_COUNT : Nat := 4

/-- The fields of `ncmp_client_t` that a command reads and writes. -/
structure NcmpClient where
  slotMask : UInt32
  seq : UInt32

/-- A client after `ncmp_client_init`. -/
def ncmpClientInit (slotMask : UInt32) : NcmpClient where
  slotMask := slotMask
  seq := 0

/-- The calls that start a producer: `ncmp_slot_enqueue` and `ncmp_slot_wait` used directly,
or a command of a client. `scratch` is what `malloc` returns. -/
inductive Request (C : Type)
  | exec (sessionId sequenceId : UInt32) (req rsp : NcmpMessage) (spinBudget : UInt64)
  | command (client : C) (opcode : UInt32) (input : Option Buf) (inLen : UInt32)
      (out : Option Buf) (outCap : UInt32)
  | commandMp (client : C) (opcode : UInt32) (parts : List (Option Buf × UInt32))
      (scratch : Option Buf) (out : Option Buf) (outCap : UInt32)

/-- The checks of `ncmp_client_exec` before it enqueues. -/
def ncmpClientExecCheck (slotMask : UInt32) (slotId : Nat) : NcmpRc :=
  if slotId ≥ PKCS11_MAX_SLOT_COUNT then .inval
  else if slotMask &&& ((1 : UInt32) <<< UInt32.ofNat slotId) = 0 then .nodaemon
  else .ok

/-- The message that a client command sends, up to its header. -/
def ncmpClientPack : List (Option Buf × UInt32) → Option Buf → Except NcmpRc NcmpMessage
  | parts, scratch =>
      if parts.length < 1 ∨ parts.length > NCMP_MAX_PARAM_COUNT then .error .inval
      else
        let total := (parts.map fun part => part.2.toNat).sum
        match scratch with
        | none => .error .nospace
        | some buf =>
            match ncmpMsgPack NcmpMessage.zero buf (if total = 0 then 1 else total) parts with
            | (.ok, m) => .ok m
            | (rc, _) => .error rc

/-- The message of `ncmp_client_command`, up to its header. -/
def ncmpClientSingle (input : Option Buf) (inLen : UInt32) (out : Option Buf)
    (outCap : UInt32) : Except NcmpRc NcmpMessage :=
  if (inLen ≠ 0 ∧ input.isNone) ∨ (outCap ≠ 0 ∧ out.isNone) then .error .inval
  else if inLen.toNat > NCMP_MAX_PARAM_SIZE then .error .paramSize
  else .ok { NcmpMessage.zero with
    paramLen := Vector.set (Vector.replicate 8 0) 0 inLen
    payload := input
    payloadCap := inLen.toNat }

/-- The call of a client command once its message `m` is packed: a client command uses
session 0 and the next number of its client. -/
def clientCall (id : Nat) (seq opcode : UInt32) (m : NcmpMessage) (out : Option Buf)
    (outCap : UInt32) : Call where
  id := id
  sessionId := 0
  sequenceId := seq
  req := { m with header := { m.header with
    sessionId := 0, sequenceId := seq, commandId := opcode } }
  rsp := { NcmpMessage.zero with payload := out, payloadCap := outCap.toNat }
  spinBudget := NCMP_CLIENT_SPIN_BUDGET

/-- The start of a call: what it does to the clients, and the program counter at which it
enters the ring. -/
def startCall {C : Type} [DecidableEq C] (slotId id : Nat) (clients : C → NcmpClient) :
    Request C → (C → NcmpClient) × ProdPc
  | .exec sessionId sequenceId req rsp spinBudget =>
      (clients, .claim ⟨id, sessionId, sequenceId, req, rsp, spinBudget⟩ 0)
  | .command cl opcode input inLen out outCap =>
      send cl opcode out outCap (ncmpClientSingle input inLen out outCap)
  | .commandMp cl opcode parts scratch out outCap =>
      send cl opcode out outCap (ncmpClientPack parts scratch)
where
  /-- `__atomic_add_fetch(&c->seq, 1, ..)` and the call of `ncmp_client_exec`. -/
  send (cl : C) (opcode : UInt32) (out : Option Buf) (outCap : UInt32) :
      Except NcmpRc NcmpMessage → (C → NcmpClient) × ProdPc
    | .error rc => (clients, .rejected rc)
    | .ok m =>
        let seq := (clients cl).seq + 1
        (Function.update clients cl { clients cl with seq := seq },
          match ncmpClientExecCheck (clients cl).slotMask slotId with
          | .ok => .claim (clientCall id seq opcode m out outCap) 0
          | rc => .rejected rc)

end OpenCryptoki.Ncmp
