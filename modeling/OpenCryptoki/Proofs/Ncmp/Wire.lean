import OpenCryptoki.Ncmp.Wire
import Mathlib.Algebra.BigOperators.Group.List.Basic

/-!
# `OpenCryptoki.Proofs.Ncmp.Wire`: what an accepted frame promises

`ncmp_wire_decode` reads eight 32-bit lengths from the peer, adds them in a `uint32_t`
and compares the sum with the header's `payload_len`. Every reader of the message then
walks the payload by these lengths (`ncmp_msg_param`). `DecodeSound` states what such a
reader relies on: the lengths add up, as natural numbers, to the bytes that are there.

The sum wraps around, so the code does not promise this. `ncmpWireDecode_sound_iff` says
exactly when it does: the length words of the frame, added as natural numbers, stay below
2^32, or the frame fails another check. `ncmpWireDecode_unsound_frame` is a frame of 56
bytes with two lengths of 2^31 and no parameter byte at all, which is accepted.

The scalar lemmas come first. They move `putU32le` and `getU32le`, which shift and mask
as the source does, to `leBytes` and `leValue`.
-/

set_option autoImplicit false

namespace OpenCryptoki.Proofs.Ncmp

open Lib OpenCryptoki.Ncmp
open List (append_assoc drop_drop drop_zero map_cons mem_cons sum_cons)
open UInt32 (ofNat toNat_add toNat_inj toNat_ofNat')

/-! ### Scalars -/

/-- Putting a byte above the `k` low bits by `|` adds it at weight `2 ^ k`. -/
private theorem or_shiftLeft_byte {low k : Nat} (c : UInt8) (hlow : low < 2 ^ k)
    (hk : k + 8 ≤ 32) : low ||| (c.toNat <<< k) % 2 ^ 32 = low + 2 ^ k * c.toNat := by
  have hc : c.toNat < 2 ^ 8 := c.toNat_lt
  have hfit : c.toNat <<< k < 2 ^ 32 := by
    rw [Nat.shiftLeft_eq]
    calc c.toNat * 2 ^ k < 2 ^ 8 * 2 ^ k := Nat.mul_lt_mul_of_pos_right hc (Nat.two_pow_pos k)
      _ = 2 ^ (k + 8) := by rw [pow_add, mul_comm]
      _ ≤ 2 ^ 32 := Nat.pow_le_pow_right (by decide) hk
  rw [Nat.mod_eq_of_lt hfit, Nat.or_comm, ← Nat.shiftLeft_add_eq_or_of_lt hlow,
    Nat.shiftLeft_eq, add_comm, mul_comm]

/-- `getU32le` reads the little-endian value of the first four bytes. -/
theorem toNat_getU32le (p : List UInt8) :
    (getU32le p).toNat = leValue [p.getD 0 0, p.getD 1 0, p.getD 2 0, p.getD 3 0] := by
  have h0 : (p.getD 0 0).toNat < 256 := UInt8.toNat_lt _
  have h1 : (p.getD 1 0).toNat < 256 := UInt8.toNat_lt _
  have h2 : (p.getD 2 0).toNat < 256 := UInt8.toNat_lt _
  show (p.getD 0 0).toNat ||| ((p.getD 1 0).toNat <<< 8) % 2 ^ 32 |||
      ((p.getD 2 0).toNat <<< 16) % 2 ^ 32 ||| ((p.getD 3 0).toNat <<< 24) % 2 ^ 32 = _
  have e1 := or_shiftLeft_byte (p.getD 1 0)
    (show (p.getD 0 0).toNat < 2 ^ 8 from h0) (by omega)
  have e2 := or_shiftLeft_byte (p.getD 2 0)
    (show (p.getD 0 0).toNat + 2 ^ 8 * (p.getD 1 0).toNat < 2 ^ 16 from by omega) (by omega)
  have e3 := or_shiftLeft_byte (p.getD 3 0)
    (show (p.getD 0 0).toNat + 2 ^ 8 * (p.getD 1 0).toNat + 2 ^ 16 * (p.getD 2 0).toNat
      < 2 ^ 24 from by omega) (by omega)
  rw [e1, e2, e3]
  simp only [leValue]
  omega

variable (v : UInt32)

/-- `putU32le` writes the four little-endian bytes of the word. -/
theorem putU32le_eq_leBytes : putU32le v = leBytes 4 v.toNat := by
  have hshift : ∀ k : Nat, k < 32 → ((v >>> ofNat k).toUInt8)
      = UInt8.ofNat (v.toNat / 2 ^ k) := by
    intro k hk
    apply UInt8.toNat_inj.mp
    have hk' : (ofNat k).toNat % 32 = k := by
      rw [toNat_ofNat', Nat.mod_eq_of_lt (by omega : k < 2 ^ 32), Nat.mod_eq_of_lt hk]
    rw [UInt32.toNat_toUInt8, UInt32.toNat_shiftRight, hk', Nat.shiftRight_eq_div_pow]
    rfl
  have h8 := hshift 8 (by omega)
  have h16 := hshift 16 (by omega)
  have h24 := hshift 24 (by omega)
  have h0 : v.toUInt8 = UInt8.ofNat v.toNat := by
    apply UInt8.toNat_inj.mp
    rw [UInt32.toNat_toUInt8]
    rfl
  simp only [leBytes, Nat.div_div_eq_div_mul]
  show [v.toUInt8, (v >>> ofNat 8).toUInt8, (v >>> ofNat 16).toUInt8,
    (v >>> ofNat 24).toUInt8] = _
  rw [h0, h8, h16, h24]
  rfl

/-- A number has 4 bytes. -/
@[simp] theorem length_putU32le : (putU32le v).length = 4 := rfl

/-- A word that was put at the front is read back, whatever follows. -/
theorem getU32le_putU32le_append (rest : List UInt8) : getU32le (putU32le v ++ rest) = v := by
  apply UInt32.toNat_inj.mp
  have hlt : v.toNat < 256 ^ 4 := v.toNat_lt
  rw [toNat_getU32le, ← leValue_leBytes_of_lt hlt, ← putU32le_eq_leBytes]
  rfl

/-- Only the first four bytes matter to `getU32le`. -/
theorem toNat_getU32le_of_le_length {p : List UInt8} (h : 4 ≤ p.length) :
    (getU32le p).toNat = leValue (p.take 4) := by
  rw [toNat_getU32le]
  match p, h with
  | _ :: _ :: _ :: _ :: _, _ => rfl

/-- The `uint32_t` sum is the sum modulo 2^32. -/
theorem toNat_sumParamLen (ls : List UInt32) :
    (sumParamLen ls).toNat = (ls.map UInt32.toNat).sum % 2 ^ 32 := by
  have hacc : ∀ (ls : List UInt32) (acc : UInt32),
      (ls.foldl (· + ·) acc).toNat = (acc.toNat + (ls.map UInt32.toNat).sum) % 2 ^ 32 := by
    intro ls
    induction ls with
    | nil =>
      intro acc
      have := acc.toNat_lt
      simp only [List.foldl_nil, List.map_nil, List.sum_nil, add_zero]
      omega
    | cons l ls ih =>
      intro acc
      rw [List.foldl_cons, ih, toNat_add, map_cons, sum_cons]
      omega
  rw [sumParamLen, hacc]
  simp

/-! ### What the decoder checks -/

/-- The number that four bytes of the frame spell. -/
def frameWord (buf : List UInt8) (off : Nat) : Nat :=
  leValue ((buf.drop off).take 4)

/-- The eight parameter lengths of the frame, added as natural numbers. -/
def lenSum (buf : List UInt8) : Nat :=
  ((List.range 8).map fun i => frameWord buf (24 + i * 4)).sum

/-- The header that stands in the frame. -/
def frameHeader (buf : List UInt8) : NcmpHeader where
  sessionId := getU32le (buf.drop 4)
  sequenceId := getU32le (buf.drop 8)
  commandId := getU32le (buf.drop 12)
  ack := getU32le (buf.drop 16)
  payloadLen := getU32le (buf.drop 20)

/-- The checks of `ncmp_wire_decode` as conditions on the bytes of the frame and on the
destination: the frame length matches the payload length, the payload is there, it has
room for the length array, its length is that of the array and of the parameters modulo
2^32, and the destination, when there is one, has room for the parameters. -/
structure LengthsConsistent (buf : List UInt8) (out : NcmpMessage) : Prop where
  frame : frameWord buf 0 = (20 + frameWord buf 20) % 2 ^ 32
  fits : 24 + frameWord buf 20 ≤ buf.length
  array : 32 ≤ frameWord buf 20
  payload : frameWord buf 20 = 32 + lenSum buf % 2 ^ 32
  room : out.payload.isSome → lenSum buf % 2 ^ 32 ≤ out.payloadCap

/-- The message that `ncmp_wire_decode` leaves in `out` when it returns `NCMP_OK`. -/
def decodedMessage (buf : List UInt8) (out : NcmpMessage) : NcmpMessage where
  header := frameHeader buf
  paramLen := readParamLen (buf.drop 24)
  payload := out.payload.map fun p =>
    p.write 0 ((buf.drop 56).take (lenSum buf % 2 ^ 32))
  payloadCap := out.payloadCap

variable {buf : List UInt8} {msg : NcmpMessage} {n : Nat} {off : Nat} {f : List UInt8}

/-- A number of the frame. -/
theorem toNat_getU32le_drop (h : off + 4 ≤ buf.length) :
    (getU32le (buf.drop off)).toNat = frameWord buf off :=
  toNat_getU32le_of_le_length (by rw [List.length_drop]; omega)

/-- The lengths of the parameters in the frame. -/
theorem map_toNat_readParamLen (h : 56 ≤ buf.length) :
    (readParamLen (buf.drop 24)).toList.map UInt32.toNat
      = (List.range 8).map fun i => frameWord buf (24 + i * 4) := by
  apply List.ext_getElem
  · rw [List.length_map, List.length_map, Vector.length_toList, List.length_range]
  · intro i h₁ h₂
    have hi : i < 8 := by simpa using h₂
    simp only [readParamLen, List.getElem_map, List.getElem_range, Vector.getElem_toList,
      Vector.getElem_ofFn, drop_drop]
    exact toNat_getU32le_drop (by omega)

/-- `ncmp_wire_decode_header` accepts exactly the buffers that hold a header whose payload
length matches the frame length. -/
theorem ncmpWireDecodeHeader_eq_ok_iff (buf : List UInt8) (out hdr : NcmpHeader) :
    ncmpWireDecodeHeader buf out = (.ok, hdr) ↔
      24 ≤ buf.length ∧ frameWord buf 0 = (20 + frameWord buf 20) % 2 ^ 32 ∧
        hdr = frameHeader buf := by
  have hlayout : ncmpWireDecodeHeader buf out = if buf.length < 24 then (.truncated, out)
        else if getU32le buf ≠ 20 + (frameHeader buf).payloadLen then
          (.truncated, frameHeader buf)
        else (.ok, frameHeader buf) := by
    simp only [ncmpWireDecodeHeader, frameHeader, NCMP_FRAME_PREFIX_SIZE,
      NCMP_HEADER_WIRE_SIZE, drop_drop]
    rfl
  by_cases hlen : buf.length < 24
  · simp [hlayout, hlen]
  · have hword : getU32le buf = 20 + (frameHeader buf).payloadLen ↔
        frameWord buf 0 = (20 + frameWord buf 20) % 2 ^ 32 := by
      rw [← toNat_inj, toNat_add, ← toNat_getU32le_drop (by omega : 0 + 4 ≤ _),
        ← toNat_getU32le_drop (by omega : 20 + 4 ≤ _), drop_zero]
      rfl
    simp only [hlayout, if_neg hlen]
    split
    · rename_i hne
      simp only [Prod.mk.injEq, reduceCtorEq, false_and, false_iff]
      exact fun h => hne (hword.mpr h.2.1)
    · rename_i he
      rw [not_not] at he
      simp [hword.mp he, not_lt.mp hlen, eq_comm]

/-- What `ncmp_wire_decode` does once its header is accepted and the payload is there, with
the 32-bit sum written as the frame's length sum modulo 2^32. -/
theorem ncmpWireDecode_of_header {out : NcmpMessage}
    (hhdr : frameWord buf 0 = (20 + frameWord buf 20) % 2 ^ 32)
    (hfits : 24 + frameWord buf 20 ≤ buf.length) (harr : 32 ≤ frameWord buf 20) :
    ncmpWireDecode buf out = if frameWord buf 20 ≠ 32 + lenSum buf % 2 ^ 32 then
        (.truncated, { out with header := frameHeader buf, paramLen := readParamLen (buf.drop 24) })
      else if out.payload.isSome ∧ out.payloadCap < lenSum buf % 2 ^ 32 then
        (.nospace, { out with header := frameHeader buf, paramLen := readParamLen (buf.drop 24) })
      else (.ok, decodedMessage buf out) := by
  have hdec := (ncmpWireDecodeHeader_eq_ok_iff buf out.header _).mpr ⟨by omega, hhdr, rfl⟩
  have hlen : (frameHeader buf).payloadLen.toNat = frameWord buf 20 :=
    toNat_getU32le_drop (by omega)
  -- The decoder compares the sum of the length words modulo 2^32.
  have htoNat : (sumParamLen (readParamLen (buf.drop 24)).toList).toNat = lenSum buf % 2 ^ 32 := by
    rw [toNat_sumParamLen, map_toNat_readParamLen (by omega), lenSum]
  have hsum : (sumParamLen (readParamLen (buf.drop
      (NCMP_FRAME_PREFIX_SIZE + NCMP_HEADER_WIRE_SIZE))).toList).toNat = lenSum buf % 2 ^ 32 :=
    htoNat
  have hneed : ¬ buf.length < NCMP_FRAME_PREFIX_SIZE + NCMP_HEADER_WIRE_SIZE
      + frameWord buf 20 := by
    rw [NCMP_FRAME_PREFIX_SIZE, NCMP_HEADER_WIRE_SIZE]
    omega
  have hsize : NCMP_PARAM_LEN_ARRAY_SIZE = 32 := rfl
  simp only [ncmpWireDecode, hdec, if_neg hneed, hlen, hsum, hsize, if_neg harr.not_gt]
  by_cases hpay : frameWord buf 20 ≠ 32 + lenSum buf % 2 ^ 32
  · rw [if_pos hpay, if_pos hpay]
    rfl
  · rw [if_neg hpay, if_neg hpay]
    obtain ⟨header, paramLen, payload, payloadCap⟩ := out
    rw [decodedMessage]
    generalize lenSum buf % 2 ^ 32 = n
    cases payload with
    | none => simp; rfl
    | some p =>
      -- A copy of no bytes leaves the destination alone.
      rcases Nat.eq_zero_or_pos n with rfl | hpos
      · simp; rfl
      · simp [hpos]; rfl

/-- The specification of `ncmp_wire_decode`: it returns `NCMP_OK` exactly when the checks
hold, and `out` is then the decoded message. -/
theorem ncmpWireDecode_eq_ok_iff (buf : List UInt8) (out m : NcmpMessage) :
    ncmpWireDecode buf out = (.ok, m) ↔ LengthsConsistent buf out ∧ m = decodedMessage buf out := by
  constructor
  · intro h
    obtain ⟨header, hdec⟩ : ∃ header, ncmpWireDecodeHeader buf out.header = (.ok, header) := by
      rw [ncmpWireDecode] at h
      split at h
      · exact ⟨_, ‹_›⟩
      · simp_all
    obtain ⟨hbuf, hhdr, rfl⟩ := (ncmpWireDecodeHeader_eq_ok_iff buf out.header _).mp hdec
    have hlen : (frameHeader buf).payloadLen.toNat = frameWord buf 20 :=
      toNat_getU32le_drop (by omega)
    have hfits : 24 + frameWord buf 20 ≤ buf.length ∧ 32 ≤ frameWord buf 20 := by
      by_contra hne
      simp only [ncmpWireDecode, hdec, hlen, NCMP_FRAME_PREFIX_SIZE, NCMP_HEADER_WIRE_SIZE] at h
      split at h
      · simp at h
      · rw [if_pos (by change _ < 32; omega)] at h
        simp at h
    rw [ncmpWireDecode_of_header hhdr hfits.1 hfits.2] at h
    split at h
    · simp at h
    · split at h
      · simp at h
      · rename_i hpay hroom
        exact ⟨⟨hhdr, hfits.1, hfits.2, by omega, by simpa using hroom⟩, (Prod.mk.inj h).2.symm⟩
  · rintro ⟨hcons, rfl⟩
    rw [ncmpWireDecode_of_header hcons.frame hcons.fits hcons.array,
      if_neg (not_not.mpr hcons.payload), if_neg]
    rintro ⟨hsome, hlt⟩
    exact absurd (hcons.room hsome) hlt.not_ge

/-! ### What the encoder writes -/

/-- The lengths of the parameters of a message, added as natural numbers. -/
def paramSum (msg : NcmpMessage) : Nat :=
  (msg.paramLen.toList.map UInt32.toNat).sum

/-- The loop of `ncmp_wire_validate_params` accepts exactly when each length and the total
are within their limits. -/
theorem ncmpWireValidateLoop_eq_ok_iff (ls : List UInt32) (total : Nat) :
    ncmpWireValidateLoop ls total = .ok ↔ (∀ l ∈ ls, l.toNat ≤ NCMP_MAX_PARAM_SIZE) ∧
        total + (ls.map UInt32.toNat).sum ≤ NCMP_MAX_PAYLOAD_SIZE := by
  induction ls generalizing total with
  | nil =>
    rw [ncmpWireValidateLoop]
    split <;> simp <;> omega
  | cons l ls ih =>
    rw [ncmpWireValidateLoop]
    split
    · simp only [reduceCtorEq, mem_cons, forall_eq_or_imp, false_iff]
      rintro ⟨⟨hl, -⟩, -⟩
      omega
    · simp only [ih, mem_cons, forall_eq_or_imp, map_cons, sum_cons]
      constructor
      · rintro ⟨hall, hsum⟩
        exact ⟨⟨by omega, hall⟩, by omega⟩
      · rintro ⟨⟨-, hall⟩, hsum⟩
        exact ⟨hall, by omega⟩

/-- The message passes `ncmp_wire_validate_params`. -/
structure WithinLimits (msg : NcmpMessage) : Prop where
  each : ∀ l ∈ msg.paramLen.toList, l.toNat ≤ NCMP_MAX_PARAM_SIZE
  total : 32 + paramSum msg ≤ NCMP_MAX_PAYLOAD_SIZE

/-- The check accepts lengths within the limits. -/
theorem ncmpWireValidateParams_eq_ok_iff (msg : NcmpMessage) :
    ncmpWireValidateParams msg.paramLen = .ok ↔ WithinLimits msg := by
  rw [ncmpWireValidateParams, ncmpWireValidateLoop_eq_ok_iff]
  exact ⟨fun h => ⟨h.1, h.2⟩, fun h => ⟨h.each, h.total⟩⟩

/-- The frame of a message: the frame length, the header, the parameter lengths and the
parameter bytes. -/
def frameOf (msg : NcmpMessage) (params : List UInt8) : List UInt8 :=
  putU32le (UInt32.ofNat (52 + paramSum msg)) ++ putU32le msg.header.sessionId ++
    putU32le msg.header.sequenceId ++ putU32le msg.header.commandId ++
    putU32le msg.header.ack ++ putU32le (UInt32.ofNat (32 + paramSum msg)) ++
    msg.paramLen.toList.flatMap putU32le ++ params

/-- `ncmp_wire_encode` on a message within the limits, with its 32-bit sums written as natural
numbers. -/
theorem WithinLimits.ncmpWireEncode_eq (h : WithinLimits msg) (n : Nat) :
    ncmpWireEncode msg n = if n < 56 + paramSum msg then .error .nospace
      else if 0 < paramSum msg then
        match msg.payload with
        | none => .error .inval
        | some p =>
            if msg.payloadCap < paramSum msg then .error .inval
            else .ok (frameOf msg (p.read 0 (paramSum msg)))
      else .ok (frameOf msg []) := by
  -- The 32-bit sum does not wrap on a message within the limits.
  have hsum : (sumParamLen msg.paramLen.toList).toNat = paramSum msg := by
    have htotal := h.total
    rw [NCMP_MAX_PAYLOAD_SIZE] at htotal
    rw [toNat_sumParamLen, ← paramSum, Nat.mod_eq_of_lt (by omega)]
  have htotal := h.total
  rw [NCMP_MAX_PAYLOAD_SIZE] at htotal
  have hpl : ofNat NCMP_PARAM_LEN_ARRAY_SIZE + sumParamLen msg.paramLen.toList
      = ofNat (32 + paramSum msg) := by
    rw [← toNat_inj, toNat_add, hsum]
    rfl
  have hfl : ofNat NCMP_HEADER_WIRE_SIZE + ofNat (32 + paramSum msg)
      = ofNat (52 + paramSum msg) := by
    rw [← UInt32.ofNat_add, NCMP_HEADER_WIRE_SIZE, ← add_assoc]
  have hlen : NCMP_FRAME_PREFIX_SIZE + (ofNat (52 + paramSum msg)).toNat
      = 56 + paramSum msg := by
    rw [NCMP_FRAME_PREFIX_SIZE, toNat_ofNat', Nat.mod_eq_of_lt (by omega)]
    omega
  rw [ncmpWireEncode, (ncmpWireValidateParams_eq_ok_iff msg).mpr h]
  cases hpayload : msg.payload <;>
    simp only [hpl, hfl, hsum, hlen, frameOf, List.append_nil]

/-- The specification of `ncmp_wire_encode`: the message is within the limits, the frame
fits the buffer, and the bytes are those of the message. -/
theorem ncmpWireEncode_eq_ok (h : ncmpWireEncode msg n = .ok f) :
    WithinLimits msg ∧ 56 + paramSum msg ≤ n ∧
      ∃ params, params.length = paramSum msg ∧ f = frameOf msg params := by
  have hlimits : WithinLimits msg := by
    rw [ncmpWireEncode] at h
    split at h
    · exact (ncmpWireValidateParams_eq_ok_iff msg).mp ‹_›
    · cases h
  rw [hlimits.ncmpWireEncode_eq] at h
  split at h
  · cases h
  · rename_i hn
    refine ⟨hlimits, not_lt.mp hn, ?_⟩
    split at h
    · split at h
      · cases h
      · rename_i p _
        split at h
        · cases h
        · exact ⟨p.read 0 (paramSum msg), Buf.length_read _ _ _, (Except.ok.inj h).symm⟩
    · exact ⟨[], by rw [List.length_nil]; omega, (Except.ok.inj h).symm⟩

/-- A message within the limits whose payload is there can be encoded. -/
theorem WithinLimits.exists_ncmpWireEncode (h : WithinLimits msg) (hn : 56 + paramSum msg ≤ n)
    {p : Buf} (hp : msg.payload = some p) (hcap : paramSum msg ≤ msg.payloadCap) :
    ∃ f, ncmpWireEncode msg n = .ok f := by
  rw [h.ncmpWireEncode_eq, if_neg hn.not_gt, hp]
  split
  · exact ⟨_, if_neg hcap.not_gt⟩
  · exact ⟨_, rfl⟩

/-- The length array takes 32 bytes. -/
theorem length_flatMap_putU32le (lens : Vector UInt32 8) :
    (lens.toList.flatMap putU32le).length = 32 := by
  rw [List.length_flatMap, List.map_congr_left (g := fun _ => 4) (fun v _ => length_putU32le v)]
  simp

/-- A header and the parameters. -/
theorem length_frameOf (msg : NcmpMessage) (params : List UInt8) :
    (frameOf msg params).length = 56 + params.length := by
  simp only [frameOf, List.length_append, length_putU32le, length_flatMap_putU32le]

/-- An encoded frame fits the buffer it is encoded into. -/
theorem length_le_of_ncmpWireEncode (h : ncmpWireEncode msg n = .ok f) : f.length ≤ n := by
  obtain ⟨-, hn, params, hlen, rfl⟩ := ncmpWireEncode_eq_ok h
  rw [length_frameOf, hlen]
  exact hn

/-- Behind a number. -/
theorem drop_putU32le_append (rest : List UInt8) (k : Nat) :
    (putU32le v ++ rest).drop (k + 4) = rest.drop k := rfl

section
variable (msg : NcmpMessage) (params : List UInt8)

/-- The header in the frame is the header of the message with the payload length set. -/
theorem frameHeader_frameOf :
    frameHeader (frameOf msg params)
      = { msg.header with payloadLen := ofNat (32 + paramSum msg) } := by
  simp only [frameHeader, frameOf, append_assoc, drop_putU32le_append _ _ 0,
    drop_putU32le_append _ _ 4, drop_putU32le_append _ _ 8, drop_putU32le_append _ _ 12,
    drop_putU32le_append _ _ 16, drop_zero, getU32le_putU32le_append]

/-- What follows the header in the frame. -/
theorem drop_frameOf_header :
    (frameOf msg params).drop 24 = msg.paramLen.toList.flatMap putU32le ++ params := by
  simp only [frameOf, append_assoc, drop_putU32le_append _ _ 20,
    drop_putU32le_append _ _ 16, drop_putU32le_append _ _ 12, drop_putU32le_append _ _ 8,
    drop_putU32le_append _ _ 4, drop_putU32le_append _ _ 0, drop_zero]

/-- What follows the length array in the frame. -/
theorem drop_frameOf : (frameOf msg params).drop 56 = params := by
  rw [show 56 = 24 + 32 from rfl, ← drop_drop, drop_frameOf_header]
  exact List.drop_left' (length_flatMap_putU32le msg.paramLen)

/-- The length array of the frame holds the lengths of the message. -/
theorem readParamLen_frameOf : readParamLen ((frameOf msg params).drop 24) = msg.paramLen := by
  have hdrop (ls : List UInt32) (k : Nat) (hk : k < ls.length) :
      getU32le ((ls.flatMap putU32le ++ params).drop (k * 4)) = ls[k] := by
    induction ls generalizing k with
    | nil => cases hk
    | cons l ls ih =>
      cases k with
      | zero =>
        rw [List.flatMap_cons, append_assoc, zero_mul, drop_zero, getU32le_putU32le_append]
        rfl
      | succ k =>
        rw [List.flatMap_cons, append_assoc, Nat.succ_mul, drop_putU32le_append]
        exact ih k (Nat.lt_of_succ_lt_succ hk)
  apply Vector.ext
  intro k hk
  simp only [readParamLen, drop_frameOf_header, Vector.getElem_ofFn]
  rw [hdrop _ k (by rw [Vector.length_toList]; exact hk), Vector.getElem_toList]

/-- The lengths in the frame are those of the message. -/
theorem lenSum_frameOf : lenSum (frameOf msg params) = paramSum msg := by
  rw [lenSum, ← map_toNat_readParamLen (by rw [length_frameOf]; omega), readParamLen_frameOf,
    paramSum]

end

/-- An encoded frame passes the checks of the decoder, when the destination has room. Bytes
may follow the frame. -/
theorem lengthsConsistent_frameOf (out : NcmpMessage) {params : List UInt8}
    (hlimits : WithinLimits msg) (hparams : paramSum msg ≤ params.length)
    (hroom : out.payload.isSome → paramSum msg ≤ out.payloadCap) :
    LengthsConsistent (frameOf msg params) out := by
  have htotal := hlimits.total
  rw [NCMP_MAX_PAYLOAD_SIZE] at htotal
  have hlen := length_frameOf msg params
  have hsum := lenSum_frameOf msg params
  have hpay : frameWord (frameOf msg params) 20 = 32 + paramSum msg := by
    rw [← toNat_getU32le_drop (by omega)]
    change (frameHeader (frameOf msg params)).payloadLen.toNat = _
    rw [frameHeader_frameOf, toNat_ofNat', Nat.mod_eq_of_lt (by omega)]
  have hframe : frameWord (frameOf msg params) 0 = 52 + paramSum msg := by
    rw [← toNat_getU32le_drop (by omega), drop_zero]
    simp only [frameOf, append_assoc, getU32le_putU32le_append]
    rw [toNat_ofNat', Nat.mod_eq_of_lt (by omega)]
  have hmod : paramSum msg % 2 ^ 32 = paramSum msg := Nat.mod_eq_of_lt (by omega)
  refine ⟨?_, ?_, ?_, ?_, ?_⟩
  · rw [hframe, hpay, Nat.mod_eq_of_lt (by omega)]
    omega
  · rw [hpay, hlen]
    omega
  · rw [hpay]
    omega
  · rw [hpay, hsum, hmod]
  · rw [hsum, hmod]
    exact hroom

/-! ### What acceptance guarantees -/

/-- An accepted frame carries its parameters: the lengths account for the payload, the
payload stands inside the frame, and, when the caller gave a payload buffer, every
parameter of the decoded message lies inside the copied bytes and holds the bytes of its
part of the frame. -/
def DecodeSound (buf : List UInt8) (out : NcmpMessage) : Prop :=
  ∀ m, ncmpWireDecode buf out = (.ok, m) →
    (m.paramLen.toList.map UInt32.toNat).sum + 32 = m.header.payloadLen.toNat ∧
    24 + m.header.payloadLen.toNat ≤ buf.length ∧
    ∀ p, m.payload = some p → ∀ i : Fin 8, paramOff m.paramLen.toList i + (m.paramLen.get i).toNat
        ≤ (m.paramLen.toList.map UInt32.toNat).sum ∧
      ncmpMsgParam m i = .ok
        (if (m.paramLen.get i).toNat > 0 then some (paramOff m.paramLen.toList i) else none,
          m.paramLen.get i) ∧
      p.read (paramOff m.paramLen.toList i) (m.paramLen.get i).toNat
        = ((buf.drop 56).drop (paramOff m.paramLen.toList i)).take (m.paramLen.get i).toNat

/-- A parameter ends at or before the end of all parameters. -/
theorem paramOff_add_le_sum (lens : Vector UInt32 8) (i : Fin 8) :
    paramOff lens.toList i + (lens.get i).toNat ≤ (lens.toList.map UInt32.toNat).sum := by
  have hi : i.val < (lens.toList.map UInt32.toNat).length := by simp
  have hsucc := List.sum_take_succ (lens.toList.map UInt32.toNat) i.val hi
  have hsplit := List.sum_take_add_sum_drop (lens.toList.map UInt32.toNat) (i.val + 1)
  rw [List.getElem_map, Vector.getElem_toList] at hsucc
  rw [paramOff, List.map_take]
  change _ + (lens[i.val]).toNat ≤ _
  omega

/-- `ncmp_msg_param` on one of the eight indices. -/
theorem ncmpMsgParam_of_fin (m : NcmpMessage) (i : Fin 8) :
    ncmpMsgParam m i = .ok
      (if (m.paramLen.get i).toNat > 0 then some (paramOff m.paramLen.toList i) else none,
        m.paramLen.get i) := by
  have hrange : ¬ ((i : Int) < 0 ∨ (i : Int) ≥ NCMP_MAX_PARAM_COUNT) := by
    rw [NCMP_MAX_PARAM_COUNT]
    omega
  have hget : m.paramLen.toList.getD i.val 0 = m.paramLen.get i := by
    rw [List.getD_eq_getElem _ _ (by simp), Vector.getElem_toList]
    rfl
  rw [ncmpMsgParam, if_neg hrange]
  simp only [Int.toNat_natCast, hget]

/-- Bytes copied to the start of a buffer, read back from an inner range. -/
theorem read_write_take (p : Buf) (bs : List UInt8) {len : Nat} (hn : n ≤ bs.length)
    (hin : off + len ≤ n) :
    (p.write 0 (bs.take n)).read off len = (bs.drop off).take len := by
  have hread := Buf.read_write_inside p 0 off len (bs.take n)
    (by rw [List.length_take]; omega)
  rw [zero_add] at hread
  rw [hread, List.drop_take, List.take_take, min_eq_left (by omega)]

/-- `ncmp_wire_decode` is sound on a frame exactly when that frame, if it passes the checks,
has lengths whose sum does not wrap. -/
theorem ncmpWireDecode_sound_iff (buf : List UInt8) (out : NcmpMessage) :
    DecodeSound buf out ↔ (LengthsConsistent buf out → lenSum buf < 2 ^ 32) := by
  have hsum (hc : LengthsConsistent buf out) :
      ((decodedMessage buf out).paramLen.toList.map UInt32.toNat).sum = lenSum buf := by
    rw [decodedMessage, map_toNat_readParamLen (by have := hc.fits; have := hc.array; omega),
      lenSum]
  have hlen (hc : LengthsConsistent buf out) :
      (decodedMessage buf out).header.payloadLen.toNat = frameWord buf 20 :=
    toNat_getU32le_drop (by have := hc.fits; have := hc.array; omega)
  constructor
  · intro hsound hc
    obtain ⟨haccount, -, -⟩ := hsound _ ((ncmpWireDecode_eq_ok_iff buf out _).mpr ⟨hc, rfl⟩)
    rw [hsum hc, hlen hc, hc.payload] at haccount
    omega
  · intro hnowrap m hm
    obtain ⟨hc, rfl⟩ := (ncmpWireDecode_eq_ok_iff buf out m).mp hm
    have hpay := hc.payload
    rw [Nat.mod_eq_of_lt (hnowrap hc)] at hpay
    refine ⟨by rw [hsum hc, hlen hc]; omega, by rw [hlen hc]; exact hc.fits, ?_⟩
    intro p hp i
    obtain ⟨q, -, rfl⟩ := Option.map_eq_some_iff.mp hp
    have hin := paramOff_add_le_sum (decodedMessage buf out).paramLen i
    refine ⟨hin, ncmpMsgParam_of_fin _ i, read_write_take q _ ?_ ?_⟩
    · have := hc.fits
      rw [List.length_drop, Nat.mod_eq_of_lt (hnowrap hc)]
      omega
    · rw [Nat.mod_eq_of_lt (hnowrap hc), ← hsum hc]
      exact hin

/-- A frame of 56 bytes whose first two parameter lengths are 2^31 each: the 32-bit sum of
the lengths is 0, so the payload length 32 passes. -/
def wrappedFrame : List UInt8 :=
  putU32le 52 ++ putU32le 0 ++ putU32le 1 ++ putU32le 1 ++ putU32le 0 ++ putU32le 32 ++
    putU32le 0x80000000 ++ putU32le 0x80000000 ++ List.replicate 24 0

/-- A message with the payload buffer of a full payload. -/
def fullSizeOut : NcmpMessage :=
  { NcmpMessage.zero with payload := some fun _ => 0, payloadCap := NCMP_MAX_PAYLOAD_SIZE }

/-- The frame is accepted, no byte is copied, and parameter 1 of the decoded message is then
the two gigabytes that start two gigabytes into the payload buffer. -/
theorem ncmpWireDecode_unsound_frame :
    (ncmpWireDecode wrappedFrame fullSizeOut).1 = .ok ∧
      (ncmpMsgParam (ncmpWireDecode wrappedFrame fullSizeOut).2 1).toOption
        = some (some 0x80000000, 0x80000000) ∧
      ¬ DecodeSound wrappedFrame fullSizeOut := by
  refine ⟨by decide, by decide, fun hsound => ?_⟩
  have hok : ncmpWireDecode wrappedFrame fullSizeOut
      = (.ok, (ncmpWireDecode wrappedFrame fullSizeOut).2) :=
    Prod.ext (by decide) rfl
  exact absurd (hsound _ hok).1 (by decide)

end OpenCryptoki.Proofs.Ncmp
