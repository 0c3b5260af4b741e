import Mathlib.Algebra.BigOperators.Fin
import OpenCryptoki.Lib.Run
import OpenCryptoki.Ncmp.Mock
import OpenCryptoki.Proofs.Ncmp.Wire

/-!
# `OpenCryptoki.Proofs.Ncmp.Mock`: the emulated token never fails on an encoded frame

A frame that `ncmp_wire_encode` produced is accepted by the mover of a little-endian host as long
as a container is free, and it is decoded by the scheduler. Every opcode leaves a message that can
be encoded again: it either empties parameter 0 and keeps the other lengths, or it keeps parameter
0 only, with a length within the limits (`mockExecCommand_encodable`). So a step of the scheduler
on a device that holds encoded frames always produces a response (`mockMcuStep_spec`), and it frees
exactly one container.
-/

set_option autoImplicit false

namespace OpenCryptoki.Proofs.Ncmp

open Lib OpenCryptoki.Ncmp

/-! ### Messages that can be encoded -/

/-- The message is within the limits and has a payload array of full size. -/
structure Encodable (msg : NcmpMessage) : Prop where
  limits : WithinLimits msg
  payload : ∃ p, msg.payload = some p
  cap : msg.payloadCap = NCMP_MAX_PAYLOAD_SIZE

/-- The bytes are a frame that `ncmp_wire_encode` produced. -/
def IsFrame (f : List UInt8) : Prop :=
  ∃ msg, ncmpWireEncode msg NCMP_MAX_FRAME_SIZE = .ok f

section
variable {msg : NcmpMessage} (h : Encodable msg)
include h

/-- A message that can be encoded has a frame. -/
theorem Encodable.exists_frame : ∃ f, ncmpWireEncode msg NCMP_MAX_FRAME_SIZE = .ok f := by
  obtain ⟨p, hp⟩ := h.payload
  have htotal := h.limits.total
  refine h.limits.exists_ncmpWireEncode ?_ hp ?_
  · rw [NCMP_MAX_FRAME_SIZE, NCMP_FRAME_PREFIX_SIZE, NCMP_HEADER_WIRE_SIZE]
    omega
  · rw [h.cap]
    omega

/-- The acknowledgement does not matter. -/
theorem Encodable.withAck (ack : UInt32) :
    Encodable { msg with header := { msg.header with ack := ack } } :=
  ⟨⟨h.limits.each, h.limits.total⟩, h.payload, h.cap⟩

/-- A reply with one parameter within the limit can be encoded. -/
theorem Encodable.replyOk (payload : Buf) {len : UInt32} (hlen : len.toNat ≤ NCMP_MAX_PARAM_SIZE) :
    Encodable (msg.replyOk payload len) := by
  have hlist : (msg.replyOk payload len).paramLen.toList = len :: List.replicate 7 0 := rfl
  refine ⟨⟨fun l hl => ?_, ?_⟩, ⟨payload, rfl⟩, h.cap⟩
  · rw [hlist, List.mem_cons, List.mem_replicate] at hl
    rcases hl with rfl | ⟨-, rfl⟩
    · exact hlen
    · exact zero_le
  · rw [paramSum, hlist]
    rw [NCMP_MAX_PARAM_SIZE] at hlen
    rw [NCMP_MAX_PAYLOAD_SIZE]
    simp
    omega

/-- A failed command empties parameter 0 and keeps the other lengths. -/
theorem Encodable.replyError (ack : UInt32) : Encodable (msg.replyError ack) := by
  have hlist : (msg.replyError ack).paramLen.toList = msg.paramLen.toList.set 0 0 :=
    Vector.toList_set (by decide)
  have heach := h.limits.each
  have htotal := h.limits.total
  refine ⟨⟨fun l hl => ?_, ?_⟩, h.payload, h.cap⟩
  · rw [hlist] at hl
    rcases List.mem_or_eq_of_mem_set hl with hl | rfl
    · exact heach l hl
    · exact zero_le
  · rw [paramSum] at htotal
    rw [paramSum, hlist]
    -- Emptying the head of the list of lengths does not increase its sum.
    generalize msg.paramLen.toList = ls at htotal
    cases ls with
    | nil => exact htotal
    | cons l ls =>
      rw [List.set_cons_zero, List.map_cons, List.sum_cons]
      rw [List.map_cons, List.sum_cons] at htotal
      exact le_trans (by simp) htotal

end

/-! ### Opcodes -/

section Opcodes

variable {msg : NcmpMessage}

/-- What `ncmp_msg_param` returns has the length of a parameter of the message. -/
theorem Encodable.length_le (h : Encodable msg) {i : Int} {r : Option Nat × UInt32}
    (hr : ncmpMsgParam msg i = .ok r) : r.2.toNat ≤ NCMP_MAX_PARAM_SIZE := by
  rw [ncmpMsgParam] at hr
  split at hr
  · cases hr
  · rename_i hrange
    cases hr
    refine h.limits.each _ ?_
    rw [NCMP_MAX_PARAM_COUNT] at hrange
    rw [List.getD_eq_getElem _ _ (by rw [Vector.length_toList]; omega)]
    exact List.getElem_mem _

/-- The answer with random numbers. -/
theorem mockRng_encodable (h : Encodable msg) : Encodable (mockRng msg) := by
  refine h.replyOk _ ?_
  split
  · decide
  · omega

/-- Digests fit in a parameter. -/
theorem ncmpDigestSize_le (mech : UInt32) : (ncmpDigestSize mech).toNat ≤ NCMP_MAX_PARAM_SIZE := by
  rw [ncmpDigestSize]
  repeat' split
  all_goals decide

/-- The answer with a digest. -/
theorem mockDigest_encodable (h : Encodable msg) : Encodable (mockDigest msg) := by
  rw [mockDigest]
  split
  · exact h.replyError _
  · exact h.replyOk _ (ncmpDigestSize_le _)

section
variable (dev : MockDevice) (h : Encodable msg)
include h

/-- The answer to the start of a digest. -/
theorem mockDigestInit_encodable : Encodable (mockDigestInit dev msg).2 := by
  rw [mockDigestInit]
  split
  · exact h.replyError _
  · split
    · exact h.replyError _
    · exact h.replyOk _ (by decide)

/-- The answer to a part of a digest. -/
theorem mockDigestUpdate_encodable : Encodable (mockDigestUpdate dev msg).2 := by
  rw [mockDigestUpdate]
  split
  · split
    · exact h.replyError _
    · split
      · exact h.replyError _
      · exact h.replyOk _ (by decide)
  · exact h.replyError _

/-- The answer with the digest of all parts. -/
theorem mockDigestFinal_encodable : Encodable (mockDigestFinal dev msg).2 := by
  rw [mockDigestFinal]
  split
  · exact h.replyError _
  · exact h.replyOk _ (ncmpDigestSize_le _)

end

section
variable (h : Encodable msg)
include h

/-- The answer of AES-CBC. -/
theorem mockAesCbc_encodable : Encodable (mockAesCbc msg) := by
  rw [mockAesCbc]
  split
  · rename_i hpd
    split
    · exact h.replyError _
    · exact h.replyOk _ (h.length_le hpd)
  · exact h.replyError _

/-- The answer of AES-ECB. -/
theorem mockAesEcb_encodable : Encodable (mockAesEcb msg) := by
  rw [mockAesEcb]
  split
  · rename_i hpd
    split
    · exact h.replyError _
    · exact h.replyOk _ (h.length_le hpd)
  · exact h.replyError _

/-- Encryption checks the length of its output, and decryption shortens its input. -/
theorem mockAesGcmBody_encodable (enc : Bool) (taglen : UInt32) (key iv aad : List UInt8)
    {pd : Option Nat × UInt32} (hpd : pd.2.toNat ≤ NCMP_MAX_PARAM_SIZE) :
    Encodable (mockAesGcmBody msg enc taglen key iv aad pd) := by
  rw [mockAesGcmBody]
  dsimp only
  split
  · split
    · exact h.replyError _
    · rename_i hout
      exact h.replyOk _ (not_lt.mp hout)
  · split
    · exact h.replyError _
    · rename_i hlen
      split
      · exact h.replyError _
      · refine h.replyOk _ ?_
        rw [UInt32.toNat_sub_of_le _ _ (UInt32.le_iff_toNat_le.mpr (not_lt.mp hlen))]
        omega

/-- The answer of AES-GCM. -/
theorem mockAesGcm_encodable : Encodable (mockAesGcm msg) := by
  rw [mockAesGcm]
  split
  · rename_i hpd
    split
    · exact h.replyError _
    · dsimp only
      split
      · exact h.replyError _
      · exact mockAesGcmBody_encodable h _ _ _ _ _ (h.length_le hpd)
  · exact h.replyError _

/-- The answer with an EC signature. -/
theorem mockEcSign_encodable : Encodable (mockEcSign msg) := by
  rw [mockEcSign]
  split
  · split
    · exact h.replyError _
    · refine h.replyOk _ ?_
      have htwo : (2 : UInt32).toNat = 2 := rfl
      rw [UInt32.toNat_mul, htwo, NCMP_MAX_PARAM_SIZE]
      exact le_trans (Nat.mod_le _ _) (by omega)
  · exact h.replyError _

/-- The answer with an RSA signature. -/
theorem mockRsaSign_encodable : Encodable (mockRsaSign msg) := by
  rw [mockRsaSign]
  split
  · rename_i hmod _ _
    split
    · exact h.replyError _
    · exact h.replyOk _ (h.length_le hmod)
  · exact h.replyError _

end

/-- Every opcode leaves a message that can be encoded. -/
theorem mockExecCommand_encodable (dev : MockDevice) (h : Encodable msg) :
    Encodable (mockExecCommand dev msg).2 := by
  rw [mockExecCommand]
  split
  · exact mockRng_encodable h
  split
  · exact mockDigest_encodable h
  split
  · exact mockDigestInit_encodable dev h
  split
  · exact mockDigestUpdate_encodable dev h
  split
  · exact mockDigestFinal_encodable dev h
  split
  · exact mockAesCbc_encodable h
  split
  · exact mockAesGcm_encodable h
  split
  · exact mockAesEcb_encodable h
  split
  · exact mockEcSign_encodable h
  split
  · exact mockRsaSign_encodable h
  · exact h.withAck _

/-- No opcode touches the containers. -/
theorem container_mockExecCommand (dev : MockDevice) (msg : NcmpMessage) :
    (mockExecCommand dev msg).1.container = dev.container := by
  have hinit : (mockDigestInit dev msg).1.container = dev.container := by
    rw [mockDigestInit]
    split
    · rfl
    · split <;> rfl
  have hupdate : (mockDigestUpdate dev msg).1.container = dev.container := by
    rw [mockDigestUpdate]
    split
    · split
      · rfl
      · split <;> rfl
    · rfl
  have hfinal : (mockDigestFinal dev msg).1.container = dev.container := by
    rw [mockDigestFinal]
    split <;> rfl
  rw [mockExecCommand]
  repeat' split
  all_goals first | rfl | assumption

end Opcodes

/-! ### Frames on the device -/

variable {f : List UInt8} {c : MockContainer} {dev dev' : MockDevice}
  {i : Fin NCMP_DEV_CONTAINER_COUNT}

section
variable (h : IsFrame f)
include h

/-- What the encoder guarantees about the bytes of a frame. -/
theorem IsFrame.eq_frameOf :
    ∃ msg params, WithinLimits msg ∧ params.length = paramSum msg ∧ f = frameOf msg params := by
  obtain ⟨msg, henc⟩ := h
  obtain ⟨hlimits, -, params, hparams, rfl⟩ := ncmpWireEncode_eq_ok henc
  exact ⟨msg, params, hlimits, hparams, rfl⟩

/-- A frame has at most the maximal size. -/
theorem IsFrame.length_le : f.length ≤ NCMP_MAX_FRAME_SIZE := by
  obtain ⟨msg, henc⟩ := h
  exact length_le_of_ncmpWireEncode henc

/-- A frame has a header. -/
theorem IsFrame.le_length : 56 ≤ f.length := by
  obtain ⟨msg, params, -, -, rfl⟩ := h.eq_frameOf
  rw [length_frameOf]
  omega

/-- The frame length in front of a frame is that of the rest, for a host that reads it as the
encoder has written it. -/
theorem IsFrame.wordValue_eq :
    wordValue .little (f.take 4) + NCMP_FRAME_PREFIX_SIZE = f.length := by
  have hmin := h.le_length
  rw [wordValue, ← toNat_getU32le_of_le_length (by omega)]
  obtain ⟨msg, params, hlimits, hparams, rfl⟩ := h.eq_frameOf
  have htotal := hlimits.total
  rw [NCMP_MAX_PAYLOAD_SIZE] at htotal
  rw [length_frameOf, hparams, NCMP_FRAME_PREFIX_SIZE]
  simp only [frameOf, List.append_assoc, getU32le_putU32le_append]
  rw [UInt32.toNat_ofNat', Nat.mod_eq_of_lt (by omega)]
  omega

/-- The header of a frame is decoded. -/
theorem IsFrame.decodeHeader (out : NcmpHeader) :
    ncmpWireDecodeHeader f out = (.ok, frameHeader f) := by
  have hlen := h.le_length
  obtain ⟨msg, params, hlimits, hparams, rfl⟩ := h.eq_frameOf
  have hcons := lengthsConsistent_frameOf NcmpMessage.zero hlimits hparams.ge
    nofun
  exact (ncmpWireDecodeHeader_eq_ok_iff _ _ _).mpr ⟨by omega, hcons.frame, rfl⟩

/-- A frame is decoded into a message that can be encoded again. -/
theorem IsFrame.decode (stack : Buf) :
    ∃ msg, Encodable msg ∧ ncmpWireDecode f { NcmpMessage.zero with
        payload := some stack, payloadCap := NCMP_MAX_PAYLOAD_SIZE } = (.ok, msg) := by
  obtain ⟨msg, params, hlimits, hparams, rfl⟩ := h.eq_frameOf
  refine ⟨_, ?_, (ncmpWireDecode_eq_ok_iff _ _ _).mpr
    ⟨lengthsConsistent_frameOf _ hlimits hparams.ge fun _ =>
      Nat.le_of_add_left_le hlimits.total, rfl⟩⟩
  have hlens := readParamLen_frameOf msg params
  refine ⟨⟨?_, ?_⟩, ⟨_, rfl⟩, rfl⟩
  · rw [decodedMessage, hlens]
    exact hlimits.each
  · rw [paramSum, decodedMessage, hlens]
    exact hlimits.total

end

/-- The scheduler answers a frame with a frame and leaves the containers alone. -/
theorem mockRespond_spec (dev : MockDevice) (h : IsFrame f) (stack : Buf) :
    (mockRespond dev f stack NCMP_MAX_FRAME_SIZE).1.container = dev.container ∧
      ∃ rx, (mockRespond dev f stack NCMP_MAX_FRAME_SIZE).2 = .ok rx ∧ IsFrame rx := by
  obtain ⟨msg, hmsg, hdec⟩ := h.decode stack
  simp only [mockRespond, hdec]
  split
  · obtain ⟨rx, hrx⟩ := (hmsg.withAck MOCK_CKR_FUNCTION_FAILED).exists_frame
    exact ⟨rfl, rx, hrx, _, hrx⟩
  · obtain ⟨rx, hrx⟩ := (mockExecCommand_encodable dev hmsg).exists_frame
    exact ⟨container_mockExecCommand dev msg, rx, hrx, _, hrx⟩

/-! ### The containers -/

/-- A container holds a frame and is busy, or it is empty. -/
def ContainerInv (c : MockContainer) : Prop :=
  if c.busy then IsFrame (c.data.read 0 c.used.toNat) else c.used = 0

def DevInv (dev : MockDevice) : Prop :=
  ∀ i, ContainerInv (dev.container i)

/-- A container that is not in use. -/
theorem ContainerInv.of_empty (hbusy : c.busy = false) (hused : c.used = 0) : ContainerInv c := by
  rw [ContainerInv, if_neg (by rw [hbusy]; decide)]
  exact hused

/-- A container in use holds a frame. -/
theorem ContainerInv.frame (h : ContainerInv c) (hbusy : c.busy = true) :
    IsFrame (c.data.read 0 c.used.toNat) := by
  rwa [ContainerInv, if_pos hbusy] at h

/-- A container in use is not empty. -/
theorem ContainerInv.used_ne_zero (h : ContainerInv c) (hbusy : c.busy = true) : c.used ≠ 0 := by
  intro hzero
  have hlen := (h.frame hbusy).le_length
  rw [hzero] at hlen
  simp at hlen

/-- A container that is not in use is empty. -/
theorem ContainerInv.used_eq_zero (h : ContainerInv c) (hbusy : c.busy = false) : c.used = 0 := by
  rwa [ContainerInv, if_neg (by rw [hbusy]; decide)] at h

section
variable (h : dev'.container = Function.update dev.container i c)
include h

/-- Replacing one container changes the count by that container only. -/
theorem busyCount_update :
    busyCount dev' + (dev.container i).busy.toNat = busyCount dev + c.busy.toNat := by
  have hcount (d : MockDevice) : busyCount d = ∑ j, (d.container j).busy.toNat := by
    rw [busyCount, Finset.card_filter]
    exact Finset.sum_congr rfl fun j _ => by cases (d.container j).busy <;> rfl
  have hsum := sum_add_of_agree (f := fun j => (dev.container j).busy.toNat)
    (g := fun j => (dev'.container j).busy.toNat) (i := i) fun j hj => by
      rw [h, Function.update_of_ne hj]
  rw [hcount, hcount, hsum, h, Function.update_self]

/-- Staging a frame takes one container more. -/
theorem busyCount_stage (hfree : (dev.container i).busy = false) (hc : c.busy = true) :
    busyCount dev' = busyCount dev + 1 := by
  have hupd := busyCount_update h
  rwa [hfree, hc] at hupd

/-- A response frees one container. -/
theorem busyCount_release (hbusy : (dev.container i).busy = true) (hc : c.busy = false) :
    busyCount dev' + 1 = busyCount dev := by
  have hupd := busyCount_update h
  rwa [hbusy, hc] at hupd

end

/-- While a container is free the mover finds one. -/
theorem DevInv.exists_freeContainer (h : DevInv dev)
    (hcount : busyCount dev < NCMP_DEV_CONTAINER_COUNT) :
    ∃ i, freeContainer dev = some i ∧ (dev.container i).busy = false := by
  have hfree : ∃ i, (dev.container i).busy = false := by
    by_contra hall
    push Not at hall
    have huniv : (Finset.univ.filter fun i => (dev.container i).busy) = Finset.univ :=
      Finset.filter_true_of_mem fun i _ => Bool.ne_false_iff.mp (hall i)
    rw [busyCount, huniv, Finset.card_univ, Fintype.card_fin] at hcount
    exact hcount.false
  obtain ⟨i, hi⟩ := hfree
  have hsome : (freeContainer dev).isSome := by
    rw [freeContainer, List.find?_isSome]
    exact ⟨i, List.mem_finRange i, by simp [hi, (h i).used_eq_zero hi]⟩
  obtain ⟨j, hj⟩ := Option.isSome_iff_exists.mp hsome
  have hp := List.find?_some hj
  exact ⟨j, hj, by simpa using (Bool.and_eq_true_iff.mp hp).2⟩

/-- While a container is busy the scheduler finds one. -/
theorem DevInv.exists_busyContainer (h : DevInv dev) (hcount : 0 < busyCount dev) :
    ∃ i, busyContainer dev = some i ∧ (dev.container i).busy = true := by
  obtain ⟨i, hi⟩ := Finset.card_pos.mp hcount
  have hbusy : (dev.container i).busy = true := (Finset.mem_filter.mp hi).2
  have hsome : (busyContainer dev).isSome := by
    rw [busyContainer, List.find?_isSome]
    -- Every container has its turn in a round of the scheduler.
    obtain ⟨n, hn, hidx⟩ : ∃ n < NCMP_DEV_CONTAINER_COUNT, schedIdx dev n = i := by
      have hi : i.val < 4 := i.isLt
      refine ⟨(i.val + (4 - dev.rrCursor.toNat % 4)) % 4, Nat.mod_lt _ (by decide), Fin.ext ?_⟩
      -- The cursor wraps at 2^32, which is a multiple of the number of containers.
      change (dev.rrCursor + UInt32.ofNat _).toNat % 4 = i.val
      rw [UInt32.toNat_add, UInt32.toNat_ofNat']
      omega
    refine ⟨i, List.mem_map.mpr ⟨n, List.mem_range.mpr hn, hidx⟩, ?_⟩
    simp [hbusy, (h i).used_ne_zero hbusy]
  obtain ⟨j, hj⟩ := Option.isSome_iff_exists.mp hsome
  have hp := List.find?_some hj
  exact ⟨j, hj, (Bool.and_eq_true_iff.mp hp).1⟩

/-- Replacing one container by one that keeps the invariant keeps it for the device. -/
theorem DevInv.update (h : DevInv dev) (hc : ContainerInv c)
    (heq : dev'.container = Function.update dev.container i c) : DevInv dev' := by
  intro j
  rw [heq]
  by_cases hj : j = i
  · rw [hj, Function.update_self]
    exact hc
  · rw [Function.update_of_ne hj]
    exact h j

/-- There are no more containers in use than there are. -/
theorem busyCount_le (dev : MockDevice) : busyCount dev ≤ NCMP_DEV_CONTAINER_COUNT :=
  le_trans (Finset.card_le_univ _) (le_of_eq (Fintype.card_fin _))

/-- On a little-endian host the mover accepts a frame while a container is free, and that
container is then busy. -/
theorem mockMoverIngest_spec (h : DevInv dev) (hf : IsFrame f)
    (hcount : busyCount dev < NCMP_DEV_CONTAINER_COUNT) :
    (mockMoverIngest .little dev f).2 = .ok ∧ DevInv (mockMoverIngest .little dev f).1 ∧
      busyCount (mockMoverIngest .little dev f).1 = busyCount dev + 1 := by
  obtain ⟨i, hi, hfree⟩ := h.exists_freeContainer hcount
  have hmin := hf.le_length
  have hmax := hf.length_le
  have hprefix : NCMP_FRAME_PREFIX_SIZE = 4 := rfl
  have hfits : NCMP_MAX_FRAME_SIZE ≤ NCMP_DEV_CONTAINER_SIZE := by decide
  have hword : NCMP_MAX_FRAME_SIZE < 2 ^ 32 := by decide
  simp only [mockMoverIngest, if_neg (by omega : ¬ f.length < NCMP_FRAME_PREFIX_SIZE),
    if_neg (not_not.mpr hf.wordValue_eq), if_neg (by omega : ¬ f.length > NCMP_DEV_CONTAINER_SIZE),
    hi]
  refine ⟨trivial, h.update ?_ rfl, ?_⟩
  · rw [ContainerInv, if_pos rfl]
    have hused : (UInt32.ofNat f.length).toNat = f.length := by
      rw [UInt32.toNat_ofNat', Nat.mod_eq_of_lt (by omega)]
    have hread := Buf.read_write_append (dev.container i).data 0 f
    rw [zero_add, Buf.read_zero, List.nil_append] at hread
    rw [hused, hread]
    exact hf
  · exact busyCount_stage (i := i) rfl hfree rfl

/-- The scheduler answers a frame while a container is busy, and that container is then
free. -/
theorem mockMcuStep_spec (h : DevInv dev) (hcount : 0 < busyCount dev) (stack : Buf) :
    (∃ rx, (mockMcuStep dev stack NCMP_MAX_FRAME_SIZE).2 = .ok rx ∧ IsFrame rx) ∧
      DevInv (mockMcuStep dev stack NCMP_MAX_FRAME_SIZE).1 ∧
      busyCount (mockMcuStep dev stack NCMP_MAX_FRAME_SIZE).1 + 1 = busyCount dev := by
  obtain ⟨i, hi, hbusy⟩ := h.exists_busyContainer hcount
  obtain ⟨hsame, hrx⟩ := mockRespond_spec dev ((h i).frame hbusy) stack
  simp only [mockMcuStep, hi]
  exact ⟨hrx, h.update (i := i) (.of_empty rfl rfl) (by rw [hsame]),
    busyCount_release (i := i) (by rw [hsame]) hbusy rfl⟩

/-! ### The mock as a transport -/

/-- A response fits in the buffer. -/
theorem length_mockMcuStep_le {stack : Buf} {rspCap : Nat} {rx : List UInt8}
    (h : (mockMcuStep dev stack rspCap).2 = .ok rx) : rx.length ≤ rspCap := by
  rw [mockMcuStep] at h
  split at h
  · cases h
  · dsimp only at h
    rw [mockRespond] at h
    split at h
    · split at h
      all_goals exact length_le_of_ncmpWireEncode h
    · cases h

/-- The mock transport of a host. It leaves nothing open but the contents of the scheduler's
payload array. -/
def mockTransport (order : ByteOrder) : Transport MockState where
  SendChoice := Unit
  RecvChoice := Buf
  send st _ frame _ := some (mockTransportSend order st frame)
  recv st stack := some (mockTransportRecv st stack)
  length_recv_le h := length_mockMcuStep_le (congrArg Prod.snd (Option.some.inj h))
  pending st := busyCount st.dev

end OpenCryptoki.Proofs.Ncmp
