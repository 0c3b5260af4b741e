import OpenCryptoki.Ncmp.Slot

/-!
# `OpenCryptoki.Ncmp.Client`: a client command from request to answer

The model of `ncmp_client_command` of `ncmp/stdll/ncmp_client.c` as its caller sees it: the
checks, the call of `ncmp_client_exec`, and the values that it stores through its pointers.
What happens to the request in the ring is a parameter. It is either the error that
`ncmp_slot_enqueue` or the wait loop returns, or the response frame that stands in the entry
when the loop ends. `OpenCryptoki.Ncmp.Slot` has the steps in between.
-/

set_option autoImplicit false

namespace OpenCryptoki.Ncmp

open Lib

/-- What `ncmp_slot_wait` returns when it finds `frame` in the entry: `NCMP_OK`, whatever
`ncmp_wire_decode` says, and the message as that function leaves it. -/
def ncmpSlotWaitDone (c : Call) (frame : List UInt8) : CallResult :=
  .ok (frame, (ncmpWireDecode frame c.rsp).2)

/-- What `ncmp_client_command` hands to its caller when it returns `NCMP_OK`: `*out_ack`,
`*out_len` and the buffer `out`. -/
structure CommandAnswer where
  outAck : UInt32
  outLen : UInt32
  out : Option Buf

/-- The end of `ncmp_client_command`, after `ncmp_client_exec`. -/
def ncmpClientCommandEnd : CallResult → Except NcmpRc CommandAnswer
  | .error rc => .error rc
  | .ok (_, rsp) =>
      .ok { outAck := rsp.header.ack, outLen := rsp.paramLen.get 0, out := rsp.payload }

/-- The call that `ncmp_client_command` makes, or the error it returns before it reaches the
ring. -/
def ncmpClientCommandStart (client : NcmpClient) (slotId : Nat) (opcode : UInt32)
    (input : Option Buf) (inLen : UInt32) (out : Option Buf) (outCap : UInt32) :
    Except NcmpRc Call :=
  match ncmpClientSingle input inLen out outCap with
  | .error rc => .error rc
  | .ok m =>
      match ncmpClientExecCheck client.slotMask slotId with
      | .ok => .ok (clientCall 0 (client.seq + 1) opcode m out outCap)
      | rc => .error rc

/-- `ncmp_client_command`. `ring` says what becomes of a call in the ring. -/
def ncmpClientCommand (client : NcmpClient) (slotId : Nat) (opcode : UInt32)
    (input : Option Buf) (inLen : UInt32) (out : Option Buf) (outCap : UInt32)
    (ring : Call → Except NcmpRc (List UInt8)) : Except NcmpRc CommandAnswer :=
  match ncmpClientCommandStart client slotId opcode input inLen out outCap with
  | .error rc => .error rc
  | .ok c =>
      ncmpClientCommandEnd <|
        match ring c with
        | .error rc => .error rc
        | .ok frame => ncmpSlotWaitDone c frame

end OpenCryptoki.Ncmp
