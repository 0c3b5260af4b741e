import Mathlib.Algebra.BigOperators.Group.List.Lemmas
import OpenCryptoki.Proofs.Ncmp.Wire

/-!
# `OpenCryptoki.Proofs.Ncmp.Pack`: packed messages survive the wire

`ncmp_msg_pack` lays up to eight parts one after the other into a payload buffer and notes
their lengths. `ncmpMsgPackLoop_eq_ok` says what its copy loop leaves behind, and
`ncmpMsgPack_eq_ok` what the whole function does when it succeeds: the parts stand in the
payload in order, the unused lengths are 0, and both limits of the format hold.

`pack_encode_decode` follows the message over the wire. The limits that `ncmp_msg_pack`
checks are those that `ncmp_wire_encode` checks again, so only the size of the buffer can
make the encoder fail, and every part comes out of the decoded message as it went in.
-/

set_option autoImplicit false

namespace OpenCryptoki.Proofs.Ncmp

open Lib OpenCryptoki.Ncmp

/-! ### Parts -/

/-- The bytes of a part: what the pointer points to, up to the length. -/
def partBytes (part : Option Buf × UInt32) : List UInt8 :=
  (part.1.map fun p => p.read 0 part.2.toNat).getD []

/-- The length of all parts together. -/
def partsTotal (parts : List (Option Buf × UInt32)) : Nat :=
  (parts.map fun part => part.2.toNat).sum

/-- A part that `ncmp_msg_pack` takes: it is not too long, and only an empty part may have
no pointer. -/
structure PartOk (part : Option Buf × UInt32) : Prop where
  size : part.2.toNat ≤ NCMP_MAX_PARAM_SIZE
  pointer : 0 < part.2.toNat → part.1.isSome

/-- A part has its length. -/
theorem PartOk.length_partBytes {part : Option Buf × UInt32} (h : PartOk part) :
    (partBytes part).length = part.2.toNat := by
  obtain ⟨p, len⟩ := part
  cases p with
  | some p => exact Buf.length_read p 0 len.toNat
  | none =>
    -- Without a pointer the length is 0.
    have hzero : ¬ 0 < len.toNat := fun hpos => Bool.noConfusion (h.pointer hpos)
    show 0 = len.toNat
    omega

section
variable {parts : List (Option Buf × UInt32)} (h : ∀ part ∈ parts, PartOk part)
include h

/-- The parts have their lengths. -/
theorem map_length_partBytes :
    (parts.map partBytes).map List.length = parts.map fun part => part.2.toNat := by
  rw [List.map_map]
  exact List.map_congr_left fun part hpart => (h part hpart).length_partBytes

/-- All parts have the total length. -/
theorem length_flatMap_partBytes : (parts.flatMap partBytes).length = partsTotal parts := by
  rw [List.flatMap_def, List.length_flatten, map_length_partBytes h, partsTotal]

end

/-! ### The copy loop -/

/-- The specification of the copy loop of `ncmp_msg_pack`, started at parameter `i` and at
offset `off`. -/
theorem ncmpMsgPackLoop_eq_ok {cap : Nat} {parts : List (Option Buf × UInt32)}
    {i off off' : Nat} {lens lens' : List UInt32} {buf buf' : Buf}
    (hcap : off ≤ cap) (hlens : i + parts.length ≤ lens.length)
    (h : ncmpMsgPackLoop cap parts i off lens buf = (.ok, off', lens', buf')) :
    (∀ part ∈ parts, PartOk part) ∧ off' = off + partsTotal parts ∧ off' ≤ cap ∧
      lens' = lens.take i ++ parts.map Prod.snd ++ lens.drop (i + parts.length) ∧
      buf' = buf.write off (parts.flatMap partBytes) := by
  -- The state before part `i` is the state after the parts in front of it, so the
  -- induction is on the parts that are left.
  induction parts generalizing i off lens buf with
  | nil =>
    obtain ⟨rfl, rfl, rfl⟩ : off = off' ∧ lens = lens' ∧ buf = buf' := by
      simpa [ncmpMsgPackLoop] using h
    simp [partsTotal, hcap]
  | cons part parts ih =>
    obtain ⟨p, len⟩ := part
    rw [ncmpMsgPackLoop] at h
    split at h
    · cases h
    · rename_i hsize
      split at h
      · cases h
      · rename_i hpointer
        split at h
        · cases h
        · rename_i hroom
          have hpart : PartOk (p, len) := by
            refine ⟨not_lt.mp hsize, fun hpos => ?_⟩
            cases p with
            | none => exact absurd ⟨hpos, rfl⟩ hpointer
            | some p => rfl
          rw [List.length_cons] at hlens
          have hi : i < lens.length := by omega
          obtain ⟨hparts, rfl, hcap', rfl, rfl⟩ :=
            ih (not_lt.mp hroom) (by rw [List.length_set]; omega) h
          refine ⟨?_, ?_, hcap', ?_, ?_⟩
          · intro q hq
            rcases List.mem_cons.mp hq with rfl | hq
            · exact hpart
            · exact hparts q hq
          · simp only [partsTotal, List.map_cons, List.sum_cons]
            omega
          · have htake : (lens.set i len).take (i + 1) = lens.take i ++ [len] := by
              rw [List.take_add_one, List.take_set_of_le (le_refl i)]
              simp [hi]
            rw [htake, List.drop_set_of_lt (by omega), List.length_cons,
              show i + (parts.length + 1) = i + 1 + parts.length by omega]
            simp
          · have hlen : (partBytes (p, len)).length = len.toNat := hpart.length_partBytes
            rw [List.flatMap_cons, ← Buf.write_write_append, hlen]
            rfl

/-! ### A packed message -/

/-- What `ncmp_msg_pack` guarantees of the message it filled. -/
structure Packed (parts : List (Option Buf × UInt32)) (m : NcmpMessage) : Prop where
  count : parts.length ≤ 8
  parts_ok : ∀ part ∈ parts, PartOk part
  lens : m.paramLen.toList = parts.map Prod.snd ++ List.replicate (8 - parts.length) 0
  limit : 32 + partsTotal parts ≤ NCMP_MAX_PAYLOAD_SIZE
  cap : partsTotal parts ≤ m.payloadCap
  payload : ∃ buf, m.payload = some buf ∧ buf.read 0 (partsTotal parts) = parts.flatMap partBytes

/-- The array of eight words that holds the words of a list. -/
theorem toList_ofFn_getD {ls : List UInt32} (h : ls.length = 8) :
    (Vector.ofFn fun i : Fin 8 => ls.getD i.val 0).toList = ls := by
  apply List.ext_getElem
  · simp [h]
  · intro i h₁ h₂
    simp [h₂]

/-- The specification of `ncmp_msg_pack`. -/
theorem ncmpMsgPack_eq_ok {m packed : NcmpMessage} {buf : Buf} {cap : Nat}
    {parts : List (Option Buf × UInt32)} (h : ncmpMsgPack m buf cap parts = (.ok, packed)) :
    Packed parts packed := by
  rw [ncmpMsgPack] at h
  split at h
  · cases h
  · rename_i hcount
    have hcount : parts.length ≤ 8 := by
      rw [NCMP_MAX_PARAM_COUNT] at hcount
      omega
    split at h
    · rename_i off lens buf' hloop
      obtain ⟨hparts, rfl, hcap, rfl, rfl⟩ :=
        ncmpMsgPackLoop_eq_ok (Nat.zero_le cap) (by simpa using hcount) hloop
      split at h
      · cases h
      · rename_i hlimit
        obtain rfl := (Prod.mk.inj h).2
        rw [zero_add] at hcap hlimit
        refine ⟨hcount, hparts, ?_, not_lt.mp hlimit, hcap, _, rfl, ?_⟩
        · rw [List.take_zero, List.nil_append, zero_add, List.drop_replicate]
          exact toList_ofFn_getD (by simp; omega)
        · rw [← length_flatMap_partBytes hparts]
          exact Buf.read_write buf 0 _
    · exact absurd (Prod.mk.inj h).1 (by assumption)

section Packed

variable {parts : List (Option Buf × UInt32)} {m : NcmpMessage} (h : Packed parts m)

include h

/-- The lengths in the message add up to the total. -/
theorem Packed.paramSum_eq : paramSum m = partsTotal parts := by
  rw [paramSum, h.lens, partsTotal]
  simp [Function.comp_def]

/-- The checks of `ncmp_msg_pack` imply those of `ncmp_wire_validate_params`. -/
theorem Packed.withinLimits : WithinLimits m := by
  refine ⟨?_, by rw [h.paramSum_eq]; exact h.limit⟩
  intro l hl
  rw [h.lens, List.mem_append] at hl
  rcases hl with hl | hl
  · obtain ⟨part, hpart, rfl⟩ := List.mem_map.mp hl
    exact (h.parts_ok part hpart).size
  · rw [(List.mem_replicate.mp hl).2]
    exact zero_le

/-- A packed message can be encoded exactly into the buffers that hold its frame. -/
theorem Packed.ncmpWireEncode_eq (n : Nat) :
    ncmpWireEncode m n = if n < 56 + partsTotal parts then .error .nospace
      else .ok (frameOf m (parts.flatMap partBytes)) := by
  obtain ⟨buf, hbuf, hread⟩ := h.payload
  rw [h.withinLimits.ncmpWireEncode_eq, h.paramSum_eq, hbuf]
  dsimp only
  rw [hread]
  rcases Nat.eq_zero_or_pos (partsTotal parts) with hzero | hpos
  · -- No byte is copied, and there is none in the parts.
    have hnil : parts.flatMap partBytes = [] :=
      List.eq_nil_of_length_eq_zero (by rw [length_flatMap_partBytes h.parts_ok, hzero])
    simp [hzero, hnil]
  · simp [hpos, h.cap.not_gt]

variable {i : Nat}

/-- A part has its length in the message. -/
theorem Packed.get_part (hi : i < parts.length) (hi8 : i < 8) :
    m.paramLen.get ⟨i, hi8⟩ = parts[i].2 := by
  have hword : m.paramLen.toList[i]? = some parts[i].2 := by
    rw [h.lens, List.getElem?_append_left (by simpa using hi)]
    simp [hi]
  rw [List.getElem?_eq_getElem (by simpa using hi8), Vector.getElem_toList] at hword
  exact Option.some.inj hword

/-- The other parameters are empty. -/
theorem Packed.get_unused (hi : parts.length ≤ i) (hi8 : i < 8) : m.paramLen.get ⟨i, hi8⟩ = 0 := by
  have hword : m.paramLen.toList[i]? = some 0 := by
    rw [h.lens, List.getElem?_append_right (by simpa using hi), List.getElem?_replicate,
      if_pos (by rw [List.length_map]; omega)]
  rw [List.getElem?_eq_getElem (by simpa using hi8), Vector.getElem_toList] at hword
  exact Option.some.inj hword

/-- The bytes of a part, cut out of the parameter bytes. -/
theorem Packed.take_drop_flatMap (hi : i < parts.length) :
    ((parts.flatMap partBytes).drop (paramOff m.paramLen.toList i)).take parts[i].2.toNat
      = partBytes parts[i] := by
  have hcut := List.drop_take_succ_flatten_eq_getElem (parts.map partBytes) i (by simpa using hi)
  rw [map_length_partBytes h.parts_ok, List.drop_take, List.getElem_map, ← List.flatMap_def] at hcut
  have hlen : ((parts.map fun part => part.2.toNat).take (i + 1)).sum
      - ((parts.map fun part => part.2.toNat).take i).sum = parts[i].2.toNat := by
    rw [List.sum_take_succ _ i (by simpa using hi), List.getElem_map]
    omega
  -- Where a part stands in the parameter bytes.
  have hoff : paramOff m.paramLen.toList i = ((parts.map fun part => part.2.toNat).take i).sum := by
    rw [paramOff, h.lens, List.take_append_of_le_length (by simpa using hi.le), ← List.map_take,
      ← List.map_take, List.map_map]
    rfl
  rw [hoff, ← hcut, hlen]

end Packed

/-! ### Over the wire -/

open List

/-- The bytes that `ncmp_msg_param` hands out of a payload buffer: its pointer is an offset,
or `NULL` for an empty parameter. -/
def paramBytes (payload : Buf) : Option Nat × UInt32 → List UInt8
  | (none, _) => []
  | (some off, len) => payload.read off len.toNat

/-- What the receiver of a packed message has after `ncmp_wire_decode`: the header of the
sender with the payload length set, and the parts as its parameters. -/
structure Received (parts : List (Option Buf × UInt32)) (header : NcmpHeader)
    (m : NcmpMessage) (payload : Buf) : Prop where
  header_eq : m.header = { header with payloadLen := UInt32.ofNat (32 + partsTotal parts) }
  payloadLen : m.header.payloadLen.toNat = 32 + partsTotal parts
  payload_eq : m.payload = some payload
  part : ∀ (i : Nat) (hi : i < parts.length), ∃ pointer,
    ncmpMsgParam m i = .ok (pointer, parts[i].2) ∧
      paramBytes payload (pointer, parts[i].2) = partBytes parts[i]
  unused : ∀ i : Nat, parts.length ≤ i → i < 8 → ncmpMsgParam m i = .ok (none, 0)

section
variable {parts : List (Option Buf × UInt32)} {m : NcmpMessage} (h : Packed parts m)
include h

/-- The decoded message of a packed message's frame. -/
theorem Packed.received (out : NcmpMessage) {buf : Buf} (hbuf : out.payload = some buf)
    (tail : List UInt8) :
    Received parts m.header (decodedMessage (frameOf m (parts.flatMap partBytes ++ tail)) out)
      (buf.write 0 (parts.flatMap partBytes)) := by
  have hlimit := h.limit
  rw [NCMP_MAX_PAYLOAD_SIZE] at hlimit
  have hlength := length_flatMap_partBytes h.parts_ok
  have hheader : frameHeader (frameOf m (parts.flatMap partBytes ++ tail))
      = { m.header with payloadLen := UInt32.ofNat (32 + partsTotal parts) } := by
    rw [frameHeader_frameOf, h.paramSum_eq]
  have hparam (i : Nat) (hi : i < 8) :
      ncmpMsgParam (decodedMessage (frameOf m (parts.flatMap partBytes ++ tail)) out) i = .ok
        (if (m.paramLen.get ⟨i, hi⟩).toNat > 0 then some (paramOff m.paramLen.toList i)
          else none, m.paramLen.get ⟨i, hi⟩) := by
    have hfin := ncmpMsgParam_of_fin
      (decodedMessage (frameOf m (parts.flatMap partBytes ++ tail)) out) ⟨i, hi⟩
    rw [show (decodedMessage (frameOf m (parts.flatMap partBytes ++ tail)) out).paramLen
      = m.paramLen from readParamLen_frameOf m _] at hfin
    exact hfin
  refine ⟨hheader, ?_, ?_, ?_, ?_⟩
  · show (frameHeader _).payloadLen.toNat = _
    rw [hheader]
    exact UInt32.toNat_ofNat_of_lt' (by rw [UInt32.size]; omega)
  · -- The decoder copies as many bytes as the lengths add up to, which leaves the tail out.
    have hcopy : ((frameOf m (parts.flatMap partBytes ++ tail)).drop 56).take
        (lenSum (frameOf m (parts.flatMap partBytes ++ tail)) % 2 ^ 32)
          = parts.flatMap partBytes := by
      rw [drop_frameOf, lenSum_frameOf, h.paramSum_eq, Nat.mod_eq_of_lt (by omega), ← hlength]
      exact take_left
    rw [decodedMessage, hbuf, Option.map_some, hcopy]
  · intro i hi
    have hparam := hparam i (hi.trans_le h.count)
    rw [h.get_part hi] at hparam
    refine ⟨_, hparam, ?_⟩
    split
    · have hin := paramOff_add_le_sum m.paramLen ⟨i, hi.trans_le h.count⟩
      rw [h.get_part hi, ← paramSum, h.paramSum_eq, ← hlength] at hin
      have hread := Buf.read_write_inside buf 0 (paramOff m.paramLen.toList i)
        parts[i].2.toNat (parts.flatMap partBytes) hin
      rw [paramBytes, ← h.take_drop_flatMap hi, ← hread, zero_add]
    · have hlen := (h.parts_ok _ (getElem_mem hi)).length_partBytes
      exact (eq_nil_of_length_eq_zero (by omega)).symm
  · intro i hi hi8
    rw [hparam i hi8, h.get_unused hi]
    rfl

/-- Packing looks at the parts only: the header may be filled in before or after. -/
theorem Packed.setHeader (header : NcmpHeader) : Packed parts { m with header } :=
  ⟨h.count, h.parts_ok, h.lens, h.limit, h.cap, h.payload⟩

end

/-- A message that `ncmp_msg_pack` filled, with any header, is encoded exactly when the
buffer holds the 56 bytes in front of the parameters and the parameters. The frame, with any
bytes after it, is decoded into any payload buffer that holds the parameters, and gives the
header and the parts back. -/
theorem pack_encode_decode (m packed : NcmpMessage) (payloadBuf : Buf) (cap : Nat)
    (parts : List (Option Buf × UInt32)) (header : NcmpHeader)
    (hpack : ncmpMsgPack m payloadBuf cap parts = (.ok, packed)) :
    (∀ n, (∃ f, ncmpWireEncode { packed with header } n = .ok f) ↔ 56 + partsTotal parts ≤ n) ∧
    ∀ n f, ncmpWireEncode { packed with header } n = .ok f →
      ∀ (tail : List UInt8) (out : NcmpMessage) (buf : Buf), out.payload = some buf →
        partsTotal parts ≤ out.payloadCap →
        ∃ decoded payload, ncmpWireDecode (f ++ tail) out = (.ok, decoded) ∧
          Received parts header decoded payload := by
  have hpacked : Packed parts { packed with header } := (ncmpMsgPack_eq_ok hpack).setHeader header
  constructor
  · intro n
    rw [hpacked.ncmpWireEncode_eq]
    split
    · rename_i hn
      constructor
      · rintro ⟨f, hf⟩
        cases hf
      · intro hle
        exact absurd hn hle.not_gt
    · rename_i hn
      exact ⟨fun _ => not_lt.mp hn, fun _ => ⟨_, rfl⟩⟩
  · intro n f hf tail out buf hbuf hroom
    rw [hpacked.ncmpWireEncode_eq] at hf
    split at hf
    · cases hf
    · cases hf
      -- Bytes after the frame are bytes after its parameters.
      have htail : frameOf { packed with header } (parts.flatMap partBytes) ++ tail
          = frameOf { packed with header } (parts.flatMap partBytes ++ tail) := by
        simp only [frameOf, append_assoc]
      have hcons := lengthsConsistent_frameOf out hpacked.withinLimits
        (show _ ≤ (parts.flatMap partBytes ++ tail).length by
          rw [hpacked.paramSum_eq, length_append, length_flatMap_partBytes hpacked.parts_ok]
          omega)
        (fun _ => by rw [hpacked.paramSum_eq]; exact hroom)
      rw [htail]
      exact ⟨_, _, (ncmpWireDecode_eq_ok_iff _ _ _).mpr ⟨hcons, rfl⟩,
        hpacked.received out hbuf tail⟩

/-- Three parts, the second one empty and without a pointer. -/
def threeParts : List (Option Buf × UInt32) :=
  [(some fun i => UInt8.ofNat i, 3), (none, 0), (some fun _ => 7, 2)]

/-- The three parts are packed into a buffer of five bytes, and any header goes with them
into a frame of 61 bytes. -/
theorem pack_encode_decode_three :
    ∃ packed, ncmpMsgPack NcmpMessage.zero (fun _ => 0) 5 threeParts = (.ok, packed) ∧
      ∀ header, ∃ f, ncmpWireEncode { packed with header } 61 = .ok f := by
  refine ⟨(ncmpMsgPack NcmpMessage.zero (fun _ => 0) 5 threeParts).2, Prod.ext (by decide) rfl,
    fun header => ?_⟩
  exact ((pack_encode_decode NcmpMessage.zero _ (fun _ => 0) 5 threeParts header
    (Prod.ext (by decide) rfl)).1 61).mpr (by decide)

end OpenCryptoki.Proofs.Ncmp
