import OpenCryptoki.Lib.Bytes

/-!
# `OpenCryptoki.Ncmp.Wire`: the NCMP frame format

The model of `ncmp/common/ncmp_wire.c` and of the limits it uses. A frame is a 4-byte
length prefix, a 20-byte header, an array of eight parameter lengths and the parameter
bytes one after the other. All numbers are little-endian.

Machine words are `UInt32`, so their sums wrap around as the `uint32_t` sums of the
source do. Sizes of type `size_t` and the `uint64_t` total of `ncmp_wire_validate_params`
are natural numbers: no sum of eight 32-bit words reaches 2^64. A pointer argument that
the source checks against `NULL` is a value here, except `payload`, which may be absent.

A function that fills its `out` argument returns the filled value beside the return code,
because the source leaves a partly filled `out` behind when a later check fails.
-/

set_option autoImplicit false

namespace OpenCryptoki.Ncmp

open Lib

/-! ### Limits and return codes -/

/-- Number of parameter slots carried in every message. -/
def NCMP_MAX_PARAM_COUNT : Nat := 8

/-- Maximum size in bytes of a single parameter. -/
def NCMP_MAX_PARAM_SIZE : Nat := 32 * 1024

/-- Maximum size in bytes of the length array and the parameters together. -/
def NCMP_MAX_PAYLOAD_SIZE : Nat := 40 * 1024

def NCMP_FRAME_PREFIX_SIZE : Nat := 4

def NCMP_HEADER_WIRE_SIZE : Nat := 20

/-- `NCMP_MAX_PARAM_COUNT * sizeof(uint32_t)`. -/
def NCMP_PARAM_LEN_ARRAY_SIZE : Nat := NCMP_MAX_PARAM_COUNT * 4

/-- Largest possible encoded frame. -/
def NCMP_MAX_FRAME_SIZE : Nat :=
  NCMP_FRAME_PREFIX_SIZE + NCMP_HEADER_WIRE_SIZE + NCMP_MAX_PAYLOAD_SIZE

/-- The return codes of `ncmp_errno.h`. -/
inductive NcmpRc
  | ok
  | inval
  | nospace
  | paramSize
  | payload
  | truncated
  | state
  | timeout
  | nodaemon
  | version
  | mutex
  | usb
  | full
  deriving DecidableEq, Repr

/-! ### Messages -/

structure NcmpHeader where
  sessionId : UInt32
  sequenceId : UInt32
  commandId : UInt32
  ack : UInt32
  payloadLen : UInt32
  deriving DecidableEq, Repr

/-- The host-side view of a message. `payload` points to a buffer of `payloadCap` bytes,
or is `NULL`. -/
structure NcmpMessage where
  header : NcmpHeader
  paramLen : Vector UInt32 8
  payload : Option Buf
  payloadCap : Nat

/-- The length of a message is its parameter `0`. -/
scoped instance neZeroParams : NeZero 8 := ⟨by decide⟩

/-- A message after `memset(&m, 0, sizeof(m))`. -/
def NcmpMessage.zero : NcmpMessage where
  header := ⟨0, 0, 0, 0, 0⟩
  paramLen := Vector.replicate 8 0
  payload := none
  payloadCap := 0

/-! ### Scalars -/

def putU32le (v : UInt32) : List UInt8 :=
  [v.toUInt8, (v >>> 8).toUInt8, (v >>> 16).toUInt8, (v >>> 24).toUInt8]

/-- Reads the four bytes that `p` points to. -/
def getU32le (p : List UInt8) : UInt32 :=
  (p.getD 0 0).toUInt32 ||| ((p.getD 1 0).toUInt32 <<< 8) |||
    ((p.getD 2 0).toUInt32 <<< 16) ||| ((p.getD 3 0).toUInt32 <<< 24)

/-- The loop `for (i..) sum += param_len[i]` over a `uint32_t` sum. -/
def sumParamLen (paramLen : List UInt32) : UInt32 :=
  paramLen.foldl (· + ·) 0

/-! ### Encoding -/

/-- The loop of `ncmp_wire_validate_params` with its running total. -/
def ncmpWireValidateLoop : List UInt32 → Nat → NcmpRc
  | [],      total => if total > NCMP_MAX_PAYLOAD_SIZE then .payload else .ok
  | l :: ls, total =>
      if l.toNat > NCMP_MAX_PARAM_SIZE then .paramSize
      else ncmpWireValidateLoop ls (total + l.toNat)

def ncmpWireValidateParams (paramLen : Vector UInt32 8) : NcmpRc :=
  ncmpWireValidateLoop paramLen.toList NCMP_PARAM_LEN_ARRAY_SIZE

/-- The bytes that `ncmp_wire_encode` puts into a buffer of `bufLen` bytes, or the error
it returns before it writes anything. `*out_len` is the length of the result. -/
def ncmpWireEncode (msg : NcmpMessage) (bufLen : Nat) : Except NcmpRc (List UInt8) :=
  match ncmpWireValidateParams msg.paramLen with
  | .ok =>
      let payloadSum := sumParamLen msg.paramLen.toList
      let payloadLen := UInt32.ofNat NCMP_PARAM_LEN_ARRAY_SIZE + payloadSum
      let frameLen := UInt32.ofNat NCMP_HEADER_WIRE_SIZE + payloadLen
      let total := NCMP_FRAME_PREFIX_SIZE + frameLen.toNat
      if bufLen < total then .error .nospace
      else
        let head :=
          putU32le frameLen ++ putU32le msg.header.sessionId ++
            putU32le msg.header.sequenceId ++ putU32le msg.header.commandId ++
            putU32le msg.header.ack ++ putU32le payloadLen ++
            msg.paramLen.toList.flatMap putU32le
        if payloadSum.toNat > 0 then
          match msg.payload with
          | none => .error .inval
          | some p =>
              if msg.payloadCap < payloadSum.toNat then .error .inval
              else .ok (head ++ p.read 0 payloadSum.toNat)
        else .ok head
  | rc => .error rc

/-! ### Decoding -/

/-- `buf` holds the `buf_len` bytes that may be read. -/
def ncmpWireDecodeHeader (buf : List UInt8) (out : NcmpHeader) : NcmpRc × NcmpHeader :=
  if buf.length < NCMP_FRAME_PREFIX_SIZE + NCMP_HEADER_WIRE_SIZE then (.truncated, out)
  else
    let frameLen := getU32le buf
    let h := buf.drop NCMP_FRAME_PREFIX_SIZE
    let hdr : NcmpHeader :=
      { sessionId := getU32le h
        sequenceId := getU32le (h.drop 4)
        commandId := getU32le (h.drop 8)
        ack := getU32le (h.drop 12)
        payloadLen := getU32le (h.drop 16) }
    if frameLen ≠ UInt32.ofNat NCMP_HEADER_WIRE_SIZE + hdr.payloadLen then (.truncated, hdr)
    else (.ok, hdr)

/-- The eight length words that `arr` points to. -/
def readParamLen (arr : List UInt8) : Vector UInt32 8 :=
  Vector.ofFn fun i : Fin 8 => getU32le (arr.drop (i.val * 4))

def ncmpWireDecode (buf : List UInt8) (out : NcmpMessage) : NcmpRc × NcmpMessage :=
  match ncmpWireDecodeHeader buf out.header with
  | (.ok, header) =>
      let out₁ := { out with header }
      let need := NCMP_FRAME_PREFIX_SIZE + NCMP_HEADER_WIRE_SIZE + header.payloadLen.toNat
      if buf.length < need then (.truncated, out₁)
      else if header.payloadLen.toNat < NCMP_PARAM_LEN_ARRAY_SIZE then (.truncated, out₁)
      else
        let arr := buf.drop (NCMP_FRAME_PREFIX_SIZE + NCMP_HEADER_WIRE_SIZE)
        let paramLen := readParamLen arr
        let sum := sumParamLen paramLen.toList
        let out₂ := { out₁ with paramLen }
        -- The sum is a `uint32_t`; only its comparison is done in 64 bits.
        if header.payloadLen.toNat ≠ NCMP_PARAM_LEN_ARRAY_SIZE + sum.toNat then
          (.truncated, out₂)
        else
          let params := arr.drop NCMP_PARAM_LEN_ARRAY_SIZE
          match out.payload with
          | none => (.ok, out₂)
          | some p =>
              if sum.toNat > 0 then
                if out.payloadCap < sum.toNat then (.nospace, out₂)
                else (.ok, { out₂ with payload := some (p.write 0 (params.take sum.toNat)) })
              else (.ok, out₂)
  | (rc, header) => (rc, { out with header })

/-! ### Parameters -/

/-- The offset of parameter `idx`: the lengths of the parameters before it, summed in a
`size_t`. -/
def paramOff (paramLen : List UInt32) (idx : Nat) : Nat :=
  ((paramLen.take idx).map UInt32.toNat).sum

/-- `ncmp_msg_param`. The pointer it returns is the offset into `m->payload`, or absent
when it is `NULL`. -/
def ncmpMsgParam (m : NcmpMessage) (idx : Int) : Except NcmpRc (Option Nat × UInt32) :=
  if idx < 0 ∨ idx ≥ NCMP_MAX_PARAM_COUNT then .error .inval
  else
    let len := m.paramLen.toList.getD idx.toNat 0
    .ok (if len.toNat > 0 then some (paramOff m.paramLen.toList idx.toNat) else none, len)

/-- The copy loop of `ncmp_msg_pack`: parameter index, write offset, lengths set so far and
destination buffer. A part is a pointer, which may be `NULL`, and a length. -/
def ncmpMsgPackLoop (cap : Nat) :
    List (Option Buf × UInt32) → Nat → Nat → List UInt32 → Buf → NcmpRc × Nat × List UInt32 × Buf
  | [],               _, off, lens, buf => (.ok, off, lens, buf)
  | (part, len) :: ps, i, off, lens, buf =>
      if len.toNat > NCMP_MAX_PARAM_SIZE then (.paramSize, off, lens, buf)
      else if len.toNat > 0 ∧ part.isNone then (.inval, off, lens, buf)
      else if off + len.toNat > cap then (.nospace, off, lens, buf)
      else
        let bytes := (part.map fun p => p.read 0 len.toNat).getD []
        ncmpMsgPackLoop cap ps (i + 1) (off + len.toNat) (lens.set i len)
          (buf.write off bytes)

def ncmpMsgPack (m : NcmpMessage) (payloadBuf : Buf) (cap : Nat)
    (parts : List (Option Buf × UInt32)) : NcmpRc × NcmpMessage :=
  if parts.length < 1 ∨ parts.length > NCMP_MAX_PARAM_COUNT then (.inval, m)
  else
    match ncmpMsgPackLoop cap parts 0 0 (List.replicate 8 0) payloadBuf with
    | (.ok, off, lens, buf) =>
        let m₁ := { m with paramLen := Vector.ofFn fun i : Fin 8 => lens.getD i.val 0 }
        if NCMP_PARAM_LEN_ARRAY_SIZE + off > NCMP_MAX_PAYLOAD_SIZE then (.payload, m₁)
        else (.ok, { m₁ with payload := some buf, payloadCap := cap })
    | (rc, _, lens, _) =>
        (rc, { m with paramLen := Vector.ofFn fun i : Fin 8 => lens.getD i.val 0 })

end OpenCryptoki.Ncmp
