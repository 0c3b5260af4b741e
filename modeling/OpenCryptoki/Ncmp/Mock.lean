import OpenCryptoki.Ncmp.CommThread
import Mathlib.Data.Fintype.Card

/-!
# `OpenCryptoki.Ncmp.Mock`: the emulated token

The model of `ncmp/mock/container.c`, `ncmp/mock/mcu_scheduler.c` and
`ncmp/mock/mock_transport.c`, with the opcodes of `ncmp/include/ncmp/ncmp_cmd.h`. The mover
stages an inbound frame in a free container. A step of the scheduler takes the next busy
container in round-robin order, decodes its frame, executes the opcode in place on the
decoded message and encodes the response.

The mover copies the length prefix into a `uint32_t`, so it reads the prefix in the byte order
of the host, which is a parameter. Everything else in a frame is read byte by byte.
The payload array of `mock_mcu_step` lives on the stack and is not initialised, so its
contents are a choice of the receive operation.
-/

set_option autoImplicit false

namespace OpenCryptoki.Ncmp

open Lib

/-! ### Constants -/

abbrev NCMP_DEV_CONTAINER_COUNT : Nat := 4

def NCMP_DEV_CONTAINER_SIZE : Nat := 64 * 1024

abbrev NCMP_MOCK_DIGEST_CTX_MAX : Nat := 8

def NCMP_MOCK_CMD_FAIL_BIT : UInt32 := 0x80000000

def MOCK_CKR_OK : UInt32 := 0
def MOCK_CKR_FUNCTION_FAILED : UInt32 := 0x6
def MOCK_CKR_ENCRYPTED_DATA_INVALID : UInt32 := 0x40
def MOCK_CKR_DEVICE_MEMORY : UInt32 := 0x31
def MOCK_CKR_MECHANISM_INVALID : UInt32 := 0x70

def MOCK_DIGEST_SEED : UInt32 := 0x811C9DC5

def NCMP_CMD_RNG : UInt32 := 0x0001
def NCMP_CMD_DIGEST : UInt32 := 0x0002
def NCMP_CMD_DIGEST_INIT : UInt32 := 0x0004
def NCMP_CMD_DIGEST_UPDATE : UInt32 := 0x0005
def NCMP_CMD_DIGEST_FINAL : UInt32 := 0x0006
def NCMP_CMD_AES_CBC : UInt32 := 0x0010
def NCMP_CMD_AES_ECB : UInt32 := 0x0011
def NCMP_CMD_AES_GCM : UInt32 := 0x0012
def NCMP_CMD_RSA_SIGN : UInt32 := 0x0020
def NCMP_CMD_EC_SIGN : UInt32 := 0x0021

def NCMP_DIGEST_CTX_NONE : UInt32 := 0xFFFFFFFF

def NCMP_AES_BLOCK : Nat := 16

/-- Extract the opcode from a wire command id. -/
def ncmpCmdOpcode (commandId : UInt32) : UInt32 :=
  commandId &&& 0x0000FFFF

/-- Digest output size in bytes, or 0 if the mechanism is not supported. -/
def ncmpDigestSize (mech : UInt32) : UInt32 :=
  if mech = 0x00000220 then 20       -- NCMP_MECH_SHA_1
  else if mech = 0x00000255 then 28  -- NCMP_MECH_SHA224
  else if mech = 0x00000250 then 32  -- NCMP_MECH_SHA256
  else if mech = 0x00000260 then 48  -- NCMP_MECH_SHA384
  else if mech = 0x00000270 then 64  -- NCMP_MECH_SHA512
  else 0

/-! ### Device state -/

/-- One emulated SRAM container. `used` is the number of bytes it holds. -/
structure MockContainer where
  data : Buf
  used : UInt32
  busy : Bool

/-- One multipart digest. -/
structure MockDigestCtx where
  inUse : Bool
  mech : UInt32
  acc : UInt32

structure MockDevice where
  container : Fin NCMP_DEV_CONTAINER_COUNT → MockContainer
  rrCursor : UInt32
  digestCtx : Fin NCMP_MOCK_DIGEST_CTX_MAX → MockDigestCtx

/-- A device after the `memset` of `ncmp_transport_open`. -/
def MockDevice.zero : MockDevice where
  container := fun _ => ⟨fun _ => 0, 0, false⟩
  rrCursor := 0
  digestCtx := fun _ => ⟨false, 0, 0⟩

/-! ### The mover -/

/-- The container that the mover stages a frame in: the first one that is free. -/
def freeContainer (dev : MockDevice) : Option (Fin NCMP_DEV_CONTAINER_COUNT) :=
  (List.finRange NCMP_DEV_CONTAINER_COUNT).find? fun i =>
    (dev.container i).used = 0 && !(dev.container i).busy

def mockMoverIngest (order : ByteOrder) (dev : MockDevice) (frame : List UInt8) :
    MockDevice × NcmpRc :=
  if frame.length < NCMP_FRAME_PREFIX_SIZE then (dev, .inval)
  else
    let frameLen := wordValue order (frame.take 4)
    if frameLen + NCMP_FRAME_PREFIX_SIZE ≠ frame.length then (dev, .truncated)
    else if frame.length > NCMP_DEV_CONTAINER_SIZE then (dev, .nospace)
    else
      match freeContainer dev with
      | some i =>
          let staged : MockContainer :=
            { data := (dev.container i).data.write 0 frame
              used := UInt32.ofNat frame.length
              busy := true }
          ({ dev with container := Function.update dev.container i staged }, .ok)
      | none => (dev, .full)

/-! ### Opcodes -/

/-- The loop `for (i = 0; i < n; ++i) out[i] = f(i)`, where `out` is the buffer from offset
`off` on and `f` may read the buffer as the loop has left it so far. -/
def fillLoop (off : Nat) (f : Buf → Nat → UInt8) : Nat → Buf → Buf
  | 0,     b => b
  | n + 1, b =>
      let b' := fillLoop off f n b
      b'.write (off + n) [f b' n]

/-- Fold the bytes into the running accumulator. -/
def mockDigestFold (acc : UInt32) (d : List UInt8) : UInt32 :=
  d.foldl (fun acc b => (acc ^^^ b.toUInt32) * 16777619) acc

/-- Byte `i` of the digest that `mock_digest_finalize` expands `acc` to. -/
def mockDigestByte (acc mech : UInt32) (i : Nat) : UInt8 :=
  ((acc >>> UInt32.ofNat (i % 8)) + UInt32.ofNat i * 31 + mech).toUInt8

/-- Write `hsize` bytes of digest to `out`, which is at offset `off`. -/
def mockDigestFinalize (acc mech : UInt32) (off : Nat) (hsize : UInt32) (out : Buf) : Buf :=
  fillLoop off (fun _ i => mockDigestByte acc mech i) hsize.toNat out

namespace NcmpMessage

/-- The payload array of the message. -/
def payloadBuf (msg : NcmpMessage) : Buf :=
  msg.payload.getD fun _ => 0

/-- The bytes of a parameter, given by the pointer and the length that `ncmp_msg_param`
returns. -/
def bytesAt (msg : NcmpMessage) (p : Option Nat × UInt32) : List UInt8 :=
  msg.payloadBuf.read (p.1.getD 0) p.2.toNat

/-- There is a parameter 0. -/
theorem zero_lt_params : 0 < 8 := by decide

/-- The end of a successful command: parameter 0 has `len` bytes, the others none. -/
def replyOk (msg : NcmpMessage) (payload : Buf) (len : UInt32) : NcmpMessage :=
  { msg with
    header := { msg.header with ack := MOCK_CKR_OK }
    paramLen := Vector.set (Vector.replicate 8 0) 0 len zero_lt_params
    payload := some payload }

/-- The end of a failed command: parameter 0 is emptied, the others stay. -/
def replyError (msg : NcmpMessage) (ack : UInt32) : NcmpMessage :=
  { msg with
    header := { msg.header with ack := ack }
    paramLen := msg.paramLen.set 0 0 zero_lt_params }

/-- `(msg->param_len[0] >= 4) ? ncmp_rd_u32le(msg->payload) : default`. -/
def leadingWord (msg : NcmpMessage) (dflt : UInt32) : UInt32 :=
  if (msg.paramLen.get 0).toNat ≥ 4 then getU32le (msg.payloadBuf.read 0 4) else dflt

end NcmpMessage

section Opcodes

open NcmpMessage

/-- Random bytes: parameter 0 is the number of bytes. -/
def mockRng (msg : NcmpMessage) : NcmpMessage :=
  let want := msg.leadingWord 0
  let want := if want.toNat > NCMP_MAX_PARAM_SIZE then UInt32.ofNat NCMP_MAX_PARAM_SIZE else want
  -- NCMP_MOCK_RNG_BYTE(i)
  msg.replyOk (fillLoop 0 (fun _ i => UInt8.ofNat (0x5A + i)) want.toNat msg.payloadBuf) want

/-- One-shot digest: parameter 0 is the mechanism and the input. -/
def mockDigest (msg : NcmpMessage) : NcmpMessage :=
  let inLen := msg.paramLen.get 0
  let mech := msg.leadingWord 0
  let hsize := ncmpDigestSize mech
  if hsize = 0 ∨ inLen.toNat < 4 then msg.replyError MOCK_CKR_MECHANISM_INVALID
  else
    let acc := mockDigestFold (mech ^^^ MOCK_DIGEST_SEED)
      (msg.payloadBuf.read 4 (inLen.toNat - 4))
    msg.replyOk (mockDigestFinalize acc mech 0 hsize msg.payloadBuf) hsize

/-- Start a multipart digest: parameter 0 is the mechanism, the reply is the context. -/
def mockDigestInit (dev : MockDevice) (msg : NcmpMessage) : MockDevice × NcmpMessage :=
  let mech := msg.leadingWord 0
  if ncmpDigestSize mech = 0 then (dev, msg.replyError MOCK_CKR_MECHANISM_INVALID)
  else
    match (List.finRange NCMP_MOCK_DIGEST_CTX_MAX).find? fun i => !(dev.digestCtx i).inUse with
    | none => (dev, msg.replyError MOCK_CKR_DEVICE_MEMORY)
    | some slot =>
        let ctx : MockDigestCtx := ⟨true, mech, mech ^^^ MOCK_DIGEST_SEED⟩
        ({ dev with digestCtx := Function.update dev.digestCtx slot ctx },
          msg.replyOk (msg.payloadBuf.write 0 (putU32le (UInt32.ofNat slot))) 4)

/-- The digest context with number `id`, when there is one in use. -/
def MockDevice.ctxInUse (dev : MockDevice) (id : UInt32) :
    Option (Fin NCMP_MOCK_DIGEST_CTX_MAX) :=
  if h : id.toNat < NCMP_MOCK_DIGEST_CTX_MAX then
    if (dev.digestCtx ⟨id.toNat, h⟩).inUse then some ⟨id.toNat, h⟩ else none
  else none

/-- Fold parameter 1 into the context of parameter 0. -/
def mockDigestUpdate (dev : MockDevice) (msg : NcmpMessage) : MockDevice × NcmpMessage :=
  match ncmpMsgParam msg 0, ncmpMsgParam msg 1 with
  | .ok pid, .ok pd =>
      if pid.2.toNat < 4 then (dev, msg.replyError MOCK_CKR_FUNCTION_FAILED)
      else
        match dev.ctxInUse (getU32le (msg.bytesAt pid)) with
        | none => (dev, msg.replyError MOCK_CKR_FUNCTION_FAILED)
        | some id =>
            let ctx := dev.digestCtx id
            let ctx := { ctx with acc := mockDigestFold ctx.acc (msg.bytesAt pd) }
            ({ dev with digestCtx := Function.update dev.digestCtx id ctx },
              msg.replyOk msg.payloadBuf 0)
  | _, _ => (dev, msg.replyError MOCK_CKR_FUNCTION_FAILED)

/-- End a multipart digest: the reply is the digest. -/
def mockDigestFinal (dev : MockDevice) (msg : NcmpMessage) : MockDevice × NcmpMessage :=
  match dev.ctxInUse (msg.leadingWord NCMP_DIGEST_CTX_NONE) with
  | none => (dev, msg.replyError MOCK_CKR_FUNCTION_FAILED)
  | some id =>
      let ctx := dev.digestCtx id
      let hsize := ncmpDigestSize ctx.mech
      ({ dev with digestCtx := Function.update dev.digestCtx id { ctx with inUse := false } },
        msg.replyOk (mockDigestFinalize ctx.acc ctx.mech 0 hsize msg.payloadBuf) hsize)

/-- The key lengths that the AES commands accept. -/
def aesKeyLen (lk : UInt32) : Bool :=
  lk = 16 ∨ lk = 24 ∨ lk = 32

/-- The keystream of the emulated ciphers: byte `i` of the key, of the `iv`, if there is one,
and of the position. -/
def mockKeystream (key iv : List UInt8) (i : Nat) : UInt8 :=
  key.getD (i % key.length) 0 ^^^ (if iv = [] then 0 else iv.getD (i % iv.length) 0)
    ^^^ UInt8.ofNat i

/-- `payload[i] = pd[i] ^ ks(i)` for `i < n`, in place. -/
def mockXor (pd : Option Nat) (ks : Nat → UInt8) (n : Nat) (b : Buf) : Buf :=
  fillLoop 0 (fun b i => b (pd.getD 0 + i) ^^^ ks i) n b

/-- AES-CBC: parameters flags, key, iv and data. -/
def mockAesCbc (msg : NcmpMessage) : NcmpMessage :=
  match ncmpMsgParam msg 0, ncmpMsgParam msg 1, ncmpMsgParam msg 2, ncmpMsgParam msg 3 with
  | .ok pf, .ok pk, .ok piv, .ok pd =>
      if pf.2.toNat < 4 ∨ !aesKeyLen pk.2 ∨ piv.2.toNat ≠ NCMP_AES_BLOCK ∨
          pd.2.toNat % NCMP_AES_BLOCK ≠ 0 then
        msg.replyError MOCK_CKR_MECHANISM_INVALID
      else
        let ks := mockKeystream (msg.bytesAt pk) (msg.bytesAt piv)
        msg.replyOk (mockXor pd.1 ks pd.2.toNat msg.payloadBuf) pd.2
  | _, _, _, _ => msg.replyError MOCK_CKR_MECHANISM_INVALID

/-- AES-ECB: parameters flags, key and data. -/
def mockAesEcb (msg : NcmpMessage) : NcmpMessage :=
  match ncmpMsgParam msg 0, ncmpMsgParam msg 1, ncmpMsgParam msg 2 with
  | .ok pf, .ok pk, .ok pd =>
      if pf.2.toNat < 4 ∨ !aesKeyLen pk.2 ∨ pd.2.toNat % NCMP_AES_BLOCK ≠ 0 then
        msg.replyError MOCK_CKR_MECHANISM_INVALID
      else
        let ks := mockKeystream (msg.bytesAt pk) []
        msg.replyOk (mockXor pd.1 ks pd.2.toNat msg.payloadBuf) pd.2
  | _, _, _ => msg.replyError MOCK_CKR_MECHANISM_INVALID

/-- The body of AES-GCM after its parameters are checked. The tag is taken over the key, the
iv, the associated data and the ciphertext. -/
def mockAesGcmBody (msg : NcmpMessage) (enc : Bool) (taglen : UInt32)
    (key iv aad : List UInt8) (pd : Option Nat × UInt32) : NcmpMessage :=
  let acc := mockDigestFold (mockDigestFold (mockDigestFold MOCK_DIGEST_SEED key) iv) aad
  let ks := mockKeystream key iv
  if enc then
    let outlen := pd.2 + taglen
    if outlen.toNat > NCMP_MAX_PARAM_SIZE then msg.replyError MOCK_CKR_MECHANISM_INVALID
    else
      let ct := mockXor pd.1 ks pd.2.toNat msg.payloadBuf
      let acc := mockDigestFold acc (ct.read 0 pd.2.toNat)
      msg.replyOk (mockDigestFinalize acc 0 pd.2.toNat taglen ct) outlen
  else if pd.2.toNat < taglen.toNat then msg.replyError MOCK_CKR_ENCRYPTED_DATA_INVALID
  else
    let ctlen := pd.2 - taglen
    let data := msg.bytesAt pd
    let acc := mockDigestFold acc (data.take ctlen.toNat)
    let tag := (List.range taglen.toNat).map (mockDigestByte acc 0)
    if tag ≠ data.drop ctlen.toNat then msg.replyError MOCK_CKR_ENCRYPTED_DATA_INVALID
    else msg.replyOk (mockXor pd.1 ks ctlen.toNat msg.payloadBuf) ctlen

/-- AES-GCM: parameters flags, key, iv, associated data, tag length and data. -/
def mockAesGcm (msg : NcmpMessage) : NcmpMessage :=
  match ncmpMsgParam msg 0, ncmpMsgParam msg 1, ncmpMsgParam msg 2, ncmpMsgParam msg 3,
      ncmpMsgParam msg 4, ncmpMsgParam msg 5 with
  | .ok pf, .ok pk, .ok piv, .ok paad, .ok ptl, .ok pd =>
      if pf.2.toNat < 4 ∨ !aesKeyLen pk.2 ∨ piv.2 = 0 ∨ piv.2.toNat > 16 ∨ ptl.2.toNat < 4 then
        msg.replyError MOCK_CKR_MECHANISM_INVALID
      else
        let enc := getU32le (msg.bytesAt pf) &&& 1
        let taglen := getU32le (msg.bytesAt ptl)
        if taglen = 0 ∨ taglen.toNat > 16 then msg.replyError MOCK_CKR_MECHANISM_INVALID
        else
          mockAesGcmBody msg (enc ≠ 0) taglen (msg.bytesAt pk) (msg.bytesAt piv)
            (msg.bytesAt paad) pd
  | _, _, _, _, _, _ => msg.replyError MOCK_CKR_MECHANISM_INVALID

/-- EC sign: parameters curve, private scalar and data. The signature is twice as long as the
scalar. -/
def mockEcSign (msg : NcmpMessage) : NcmpMessage :=
  match ncmpMsgParam msg 0, ncmpMsgParam msg 1, ncmpMsgParam msg 2 with
  | .ok pparams, .ok ppriv, .ok pdata =>
      if ppriv.2 = 0 ∨ ppriv.2.toNat > 66 then msg.replyError MOCK_CKR_MECHANISM_INVALID
      else
        let siglen := 2 * ppriv.2
        let priv := msg.bytesAt ppriv
        let acc := mockDigestFold (MOCK_DIGEST_SEED ^^^ pparams.2) (msg.bytesAt pparams)
        let acc := mockDigestFold (mockDigestFold acc (msg.bytesAt pdata)) priv
        let sigByte (i : Nat) : UInt8 :=
          ((acc >>> UInt32.ofNat (i % 8)) + UInt32.ofNat i * 197 +
            (priv.getD (i % priv.length) 0).toUInt32).toUInt8
        msg.replyOk (fillLoop 0 (fun _ i => sigByte i) siglen.toNat msg.payloadBuf) siglen
  | _, _, _ => msg.replyError MOCK_CKR_MECHANISM_INVALID

/-- RSA sign: parameters modulus, private exponent and data. The signature is as long as the
modulus. -/
def mockRsaSign (msg : NcmpMessage) : NcmpMessage :=
  match ncmpMsgParam msg 0, ncmpMsgParam msg 1, ncmpMsgParam msg 2 with
  | .ok pmod, .ok pexp, .ok pdata =>
      if pmod.2 = 0 ∨ pmod.2.toNat > 512 then msg.replyError MOCK_CKR_MECHANISM_INVALID
      else
        let mod := msg.bytesAt pmod
        let acc := mockDigestFold (MOCK_DIGEST_SEED ^^^ pmod.2) (msg.bytesAt pexp)
        let acc := mockDigestFold acc (msg.bytesAt pdata)
        let sigByte (i : Nat) : UInt8 :=
          ((acc >>> UInt32.ofNat (i % 8)) + UInt32.ofNat i * 131 +
            (mod.getD i 0).toUInt32).toUInt8
        msg.replyOk (fillLoop 0 (fun _ i => sigByte i) pmod.2.toNat msg.payloadBuf) pmod.2
  | _, _, _ => msg.replyError MOCK_CKR_MECHANISM_INVALID

end Opcodes

/-- Emulate one command in place. An unknown opcode echoes the request. -/
def mockExecCommand (dev : MockDevice) (msg : NcmpMessage) : MockDevice × NcmpMessage :=
  let op := ncmpCmdOpcode msg.header.commandId
  if op = NCMP_CMD_RNG then (dev, mockRng msg)
  else if op = NCMP_CMD_DIGEST then (dev, mockDigest msg)
  else if op = NCMP_CMD_DIGEST_INIT then mockDigestInit dev msg
  else if op = NCMP_CMD_DIGEST_UPDATE then mockDigestUpdate dev msg
  else if op = NCMP_CMD_DIGEST_FINAL then mockDigestFinal dev msg
  else if op = NCMP_CMD_AES_CBC then (dev, mockAesCbc msg)
  else if op = NCMP_CMD_AES_GCM then (dev, mockAesGcm msg)
  else if op = NCMP_CMD_AES_ECB then (dev, mockAesEcb msg)
  else if op = NCMP_CMD_EC_SIGN then (dev, mockEcSign msg)
  else if op = NCMP_CMD_RSA_SIGN then (dev, mockRsaSign msg)
  else (dev, { msg with header := { msg.header with ack := MOCK_CKR_OK } })

/-! ### The scheduler -/

/-- The container that the scheduler visits in turn `n`. -/
def schedIdx (dev : MockDevice) (n : Nat) : Fin NCMP_DEV_CONTAINER_COUNT :=
  ⟨(dev.rrCursor + UInt32.ofNat n).toNat % NCMP_DEV_CONTAINER_COUNT, Nat.mod_lt _ (by decide)⟩

/-- The first busy container from the cursor on. -/
def busyContainer (dev : MockDevice) : Option (Fin NCMP_DEV_CONTAINER_COUNT) :=
  ((List.range NCMP_DEV_CONTAINER_COUNT).map (schedIdx dev)).find? fun i =>
    (dev.container i).busy && (dev.container i).used ≠ 0

/-- What the scheduler makes of the frame in a container: the device and the encoded
response. `stack` is what the payload array holds before the request is decoded. -/
def mockRespond (dev : MockDevice) (frame : List UInt8) (stack : Buf) (rspCap : Nat) :
    MockDevice × Except NcmpRc (List UInt8) :=
  let out : NcmpMessage :=
    { NcmpMessage.zero with payload := some stack, payloadCap := NCMP_MAX_PAYLOAD_SIZE }
  match ncmpWireDecode frame out with
  | (.ok, msg) =>
      if msg.header.commandId &&& NCMP_MOCK_CMD_FAIL_BIT ≠ 0 then
        (dev, ncmpWireEncode
          { msg with header := { msg.header with ack := MOCK_CKR_FUNCTION_FAILED } } rspCap)
      else
        let r := mockExecCommand dev msg
        (r.1, ncmpWireEncode r.2 rspCap)
  | (rc, _) => (dev, .error rc)

def mockMcuStep (dev : MockDevice) (stack : Buf) (rspCap : Nat) :
    MockDevice × Except NcmpRc (List UInt8) :=
  match busyContainer dev with
  | none => (dev, .error .state)
  | some i =>
      let c := dev.container i
      let r := mockRespond dev (c.data.read 0 c.used.toNat) stack rspCap
      -- The container is released whatever the outcome is.
      let released : MockContainer := { c with used := 0, busy := false }
      ({ r.1 with
          container := Function.update r.1.container i released
          rrCursor := UInt32.ofNat ((i.val + 1) % NCMP_DEV_CONTAINER_COUNT) }, r.2)

/-! ### The transport -/

/-- The device behind a transport, and the number of frames that it has accepted. -/
structure MockState where
  dev : MockDevice
  accepted : Nat

/-- `ncmp_transport_send` of the mock. -/
def mockTransportSend (order : ByteOrder) (st : MockState) (frame : List UInt8) :
    MockState × NcmpRc :=
  let r := mockMoverIngest order st.dev frame
  (⟨r.1, if r.2 = .ok then st.accepted + 1 else st.accepted⟩, r.2)

/-- `ncmp_transport_recv` of the mock: one step of the scheduler. -/
def mockTransportRecv (st : MockState) (stack : Buf) :
    MockState × Except NcmpRc (List UInt8) :=
  let r := mockMcuStep st.dev stack NCMP_MAX_FRAME_SIZE
  ({ st with dev := r.1 }, r.2)

/-- The number of busy containers. -/
def busyCount (dev : MockDevice) : Nat :=
  (Finset.univ.filter fun i => (dev.container i).busy).card

end OpenCryptoki.Ncmp
