import OpenCryptoki.Ncmp.Client
import OpenCryptoki.Proofs.Ncmp.Correlation

/-!
# `OpenCryptoki.Proofs.Ncmp.Client`: what a client may believe of an answer

A caller of `ncmp_client_command` copies `*out_len` bytes out of its buffer when the command
returns `NCMP_OK`. `command_sound_iff` says for which response frames it may do so. The
frames that `ncmp_wire_decode` refuses are not among them, because `ncmp_slot_wait` drops the
return code, and neither are all the frames it accepts: the lengths are summed in 32 bits,
and without a buffer the sum is not compared with anything.

`returned_of_run` connects the command to the ring: a call that returns a response returns what
`ncmp_slot_wait` makes of the frame in its entry. So the same holds for the answers along every run
of the slot (`run_answerSound_iff`).
-/

set_option autoImplicit false

namespace OpenCryptoki.Proofs.Ncmp

open Lib OpenCryptoki.Ncmp

/-! ### The answer -/

/-- The parameter bytes of the frame: what its payload holds after the length array. -/
def frameParams (frame : List UInt8) : List UInt8 :=
  ((frame.drop 24).take (frameWord frame 20)).drop 32

/-- The first `*out_len` bytes of `out`. -/
def CommandAnswer.bytes (a : CommandAnswer) : List UInt8 :=
  (a.out.map fun buf => buf.read 0 a.outLen.toNat).getD []

/-- The answer is parameter 0 of the frame: `ncmp_wire_decode` accepts the frame for the
caller's buffer, the parameter is as long as the frame says and lies inside the parameter
bytes, it fits the buffer, and the buffer holds its bytes. -/
structure AnswerSound (frame : List UInt8) (out : Option Buf) (outCap : UInt32)
    (a : CommandAnswer) : Prop where
  accepted : (ncmpWireDecode frame
    { NcmpMessage.zero with payload := out, payloadCap := outCap.toNat }).1 = .ok
  room : a.outLen.toNat ≤ outCap.toNat
  len : a.outLen.toNat = frameWord frame 24
  inside : a.outLen.toNat ≤ (frameParams frame).length
  bytes : CommandAnswer.bytes a = (frameParams frame).take a.outLen.toNat

/-- The frame is one that a caller with a buffer of `out_cap` bytes can use: the checks of
`ncmp_wire_decode` hold, and the length of parameter 0 is at most the 32-bit sum of the
lengths and at most `out_cap`. -/
structure ResponseFits (frame : List UInt8) (out : Option Buf) (outCap : UInt32) : Prop where
  consistent : LengthsConsistent frame
    { NcmpMessage.zero with payload := out, payloadCap := outCap.toNat }
  counted : frameWord frame 24 ≤ lenSum frame % 2 ^ 32
  room : frameWord frame 24 ≤ outCap.toNat

section Consistent

variable {frame : List UInt8} {out : NcmpMessage} (h : LengthsConsistent frame out)

include h

/-- A consistent frame has a header. -/
theorem LengthsConsistent.length_le : 56 ≤ frame.length := by
  have hfits := h.fits
  have harray := h.array
  omega

/-- The decoded message has the first length word of the frame. -/
theorem LengthsConsistent.toNat_get_zero :
    ((decodedMessage frame out).paramLen.get 0).toNat = frameWord frame 24 := by
  have hlen : 24 + 4 ≤ frame.length := le_trans (by decide) h.length_le
  have hword := toNat_getU32le_drop hlen
  rw [← hword]
  show (readParamLen (frame.drop 24))[0].toNat = _
  simp [readParamLen]

/-- The parameters have their length. -/
theorem LengthsConsistent.length_frameParams :
    (frameParams frame).length = lenSum frame % 2 ^ 32 := by
  have hfits := h.fits
  have hpayload := h.payload
  simp only [frameParams, List.length_drop, List.length_take]
  omega

/-- The parameters follow the header. -/
theorem LengthsConsistent.frameParams_eq :
    frameParams frame = (frame.drop 56).take (lenSum frame % 2 ^ 32) := by
  rw [frameParams, List.drop_take, List.drop_drop, h.payload, Nat.add_sub_cancel_left]

end Consistent

/-! ### Commands -/

/-- Whatever frame the ring delivers, an answer that the command hands out is parameter 0 of
it. A frame that `ncmp_wire_decode` does not accept must therefore not give an answer. -/
def CommandSound (client : NcmpClient) (slotId : Nat) (opcode : UInt32) (input : Option Buf)
    (inLen : UInt32) (out : Option Buf) (outCap : UInt32)
    (ring : Call → Except NcmpRc (List UInt8)) : Prop :=
  ∀ c frame a, ncmpClientCommandStart client slotId opcode input inLen out outCap = .ok c →
    ring c = .ok frame →
    ncmpClientCommand client slotId opcode input inLen out outCap ring = .ok a →
    AnswerSound frame out outCap a

variable {client : NcmpClient} {slotId : Nat} {opcode inLen outCap : UInt32} {input : Option Buf}
  {c : Call}

section
variable {out : Option Buf}

/-- The response buffer that a client command passes down. -/
theorem rsp_of_ncmpClientCommandStart
    (h : ncmpClientCommandStart client slotId opcode input inLen out outCap = .ok c) :
    c.rsp = { NcmpMessage.zero with payload := out, payloadCap := outCap.toNat } := by
  rw [ncmpClientCommandStart] at h
  split at h
  · cases h
  · split at h
    · cases h
      rfl
    · cases h

/-- The answer that the caller gets for a frame. -/
def answerTo (frame : List UInt8) (out : Option Buf) (outCap : UInt32) : CommandAnswer :=
  let rsp := (ncmpWireDecode frame
    { NcmpMessage.zero with payload := out, payloadCap := outCap.toNat }).2
  { outAck := rsp.header.ack, outLen := rsp.paramLen.get 0, out := rsp.payload }

/-- A command that reaches the ring and gets a frame returns `NCMP_OK`. -/
theorem ncmpClientCommand_of_frame {ring : Call → Except NcmpRc (List UInt8)} {frame : List UInt8}
    (hstart : ncmpClientCommandStart client slotId opcode input inLen out outCap = .ok c)
    (hring : ring c = .ok frame) :
    ncmpClientCommand client slotId opcode input inLen out outCap ring
      = .ok (answerTo frame out outCap) := by
  simp only [ncmpClientCommand, hstart, hring, ncmpSlotWaitDone, ncmpClientCommandEnd,
    rsp_of_ncmpClientCommandStart hstart, answerTo]

/-- The answer to a frame is sound exactly when the frame fits. -/
theorem answerSound_iff (frame : List UInt8) (out : Option Buf) (outCap : UInt32)
    (hout : outCap ≠ 0 → out.isSome) :
    AnswerSound frame out outCap (answerTo frame out outCap) ↔ ResponseFits frame out outCap := by
  constructor
  · intro h
    have hcons := ((ncmpWireDecode_eq_ok_iff frame _ _).mp (Prod.ext h.accepted rfl)).1
    have hinside := h.inside
    have hroom := h.room
    rw [h.len] at hroom hinside
    exact ⟨hcons, hcons.length_frameParams ▸ hinside, hroom⟩
  · intro h
    obtain ⟨hlen, hbuf⟩ : (answerTo frame out outCap).outLen.toNat = frameWord frame 24 ∧
        (answerTo frame out outCap).out = out.map fun buf => buf.write 0 (frameParams frame) := by
      have hdec := (ncmpWireDecode_eq_ok_iff frame _ _).mpr ⟨h.consistent, rfl⟩
      rw [answerTo, hdec]
      exact ⟨h.consistent.toNat_get_zero, by rw [h.consistent.frameParams_eq]; rfl⟩
    have hinside : (answerTo frame out outCap).outLen.toNat ≤ (frameParams frame).length := by
      rw [hlen, h.consistent.length_frameParams]
      exact h.counted
    refine ⟨?_, hlen ▸ h.room, hlen, hinside, ?_⟩
    · rw [(ncmpWireDecode_eq_ok_iff frame _ _).mpr ⟨h.consistent, rfl⟩]
    · rw [CommandAnswer.bytes, hbuf]
      cases out with
      | none =>
        -- Without a buffer the capacity is 0, so the parameter is empty.
        have hcap : outCap = 0 := by
          by_contra hne
          exact Bool.noConfusion (hout hne)
        have hzero : (answerTo frame none outCap).outLen.toNat = 0 := by
          have hroom := h.room
          rw [← hlen, hcap] at hroom
          rw [hcap]
          exact Nat.le_zero.mp hroom
        rw [hzero]
        rfl
      | some buf =>
        exact Buf.read_write_inside buf 0 0 _ (frameParams frame)
          ((Nat.zero_add _).le.trans hinside)

/-- A buffer with room is not NULL. -/
theorem isSome_of_ncmpClientCommandStart
    (h : ncmpClientCommandStart client slotId opcode input inLen out outCap = .ok c)
    (hcap : outCap ≠ 0) : out.isSome := by
  rw [ncmpClientCommandStart, ncmpClientSingle] at h
  split at h
  · cases h
  · rename_i hsingle
    split at hsingle
    · cases hsingle
    · rename_i hnull
      cases out with
      | none => exact absurd (.inr ⟨hcap, rfl⟩) hnull
      | some buf => rfl

end

/-- A client command is sound exactly when every frame that the ring delivers to it fits. -/
theorem command_sound_iff (client : NcmpClient) (slotId : Nat) (opcode : UInt32)
    (input : Option Buf) (inLen : UInt32) (out : Option Buf) (outCap : UInt32)
    (ring : Call → Except NcmpRc (List UInt8)) :
    CommandSound client slotId opcode input inLen out outCap ring ↔
      ∀ c frame, ncmpClientCommandStart client slotId opcode input inLen out outCap = .ok c →
        ring c = .ok frame → ResponseFits frame out outCap := by
  constructor
  · intro hsound c frame hstart hring
    have ha := hsound c frame _ hstart hring (ncmpClientCommand_of_frame hstart hring)
    exact (answerSound_iff frame out outCap (isSome_of_ncmpClientCommandStart hstart)).mp ha
  · intro hfits c frame a hstart hring ha
    rw [ncmpClientCommand_of_frame hstart hring] at ha
    cases ha
    exact (answerSound_iff frame out outCap (isSome_of_ncmpClientCommandStart hstart)).mpr
      (hfits c frame hstart hring)

/-- The answer of a token to the first command of a client: `CKR_OK` and one parameter of
five bytes. -/
def fiveByteAnswer : List UInt8 :=
  putU32le 57 ++ putU32le 0 ++ putU32le 1 ++ putU32le 1 ++ putU32le 0 ++ putU32le 37 ++
    putU32le 5 ++ List.replicate 28 0 ++ [1, 2, 3, 4, 5]

/-- A caller with two bytes of room is told that its command succeeded and that five bytes
were stored, while none were. -/
theorem command_unsound_answer :
    (ncmpClientCommand ⟨1, 0⟩ 0 1 none 0 (some fun _ => 0) 2 fun _ =>
        .ok fiveByteAnswer).toOption.map (fun a => (a.outLen, CommandAnswer.bytes a))
      = some (5, [0, 0, 0, 0, 0]) ∧
      ¬ CommandSound ⟨1, 0⟩ 0 1 none 0 (some fun _ => 0) 2 fun _ => .ok fiveByteAnswer := by
  refine ⟨by decide, ?_⟩
  intro hsound
  have hroom := (hsound _ fiveByteAnswer _ rfl rfl rfl).room
  exact absurd hroom (by decide)

/-! ### Commands in the ring -/

section Runs

variable {σ P C : Type} {T : Transport σ}

/-- Every call that returned a response returned what `ncmp_slot_wait` makes of the frame. -/
def ReturnsDecoded (s : Sys σ P C) : Prop :=
  ∀ p c frame m, s.prod p = .returned c (.ok (frame, m)) → .ok (frame, m) = ncmpSlotWaitDone c frame

variable {s : Sys σ P C}

/-- A call reaches its end with a response only through the release of its entry. -/
theorem ReturnsDecoded.prod [DecidableEq P] {p : P} {n : Nat} {r : SlotRing P × ProdPc}
    (hinv : ReturnsDecoded s) (h : prodStep p n s.ring (s.prod p) = some r) :
    ReturnsDecoded { s with ring := r.1, prod := Function.update s.prod p r.2 } := by
  intro q c frame m hq
  by_cases hqp : q = p
  · subst hqp
    replace hq : r.2 = .returned c (.ok (frame, m)) := by simpa using hq
    obtain ⟨_, _, _, _, hr⟩ | ⟨d, i, got, hpc, hr⟩ := prodStep_atEnds h (by rw [hq]; trivial)
    · rw [hr] at hq
      cases hq
    · rw [hr] at hq
      cases hq
      rfl
  · exact hinv q c frame m (by simpa [Function.update_of_ne hqp] using hq)

/-- Every step keeps that calls return decoded frames. -/
theorem ReturnsDecoded.step [DecidableEq P] [DecidableEq C] {s' : Sys σ P C} {a : Action T P C}
    (hown : OwnInv s) (hinv : ReturnsDecoded s) (h : s.step T a = some s') : ReturnsDecoded s' := by
  cases a with
  | start p r =>
    rw [Sys.step] at h
    obtain ⟨-, ⟨⟩⟩ := Option.ite_none_right_eq_some.mp h
    intro q c frame m hq
    by_cases hqp : q = p
    · -- A call that starts is rejected or stands at its first claim.
      subst hqp
      replace hq : (startCall s.slotId s.nextId s.clients r).2
          = .returned c (.ok (frame, m)) := by simpa using hq
      obtain ⟨_, hpc⟩ | ⟨_, _, _, _, _, _, hpc⟩ | ⟨_, _, _, _, _, hpc⟩ :=
        startCall_cases s.slotId s.nextId s.clients r <;> rw [hpc] at hq <;> cases hq
    · exact hinv q c frame m (by simpa [Function.update_of_ne hqp] using hq)
  | prod p n =>
    obtain ⟨r, hr, rfl⟩ := Option.map_eq_some_iff.mp h
    exact hinv.prod hr
  | comm ch =>
    have hsame := (commStep_spec hown.comm h).same
    intro q c frame m hq
    rw [hsame.prod] at hq
    exact hinv q c frame m hq

/-- Along every run of a slot, whatever the transport does, a call that returns a response
returns what `ncmp_slot_wait` makes of the frame it read. -/
theorem returned_of_run [DecidableEq P] [DecidableEq C] {t : Sys σ P C} {as : List (Action T P C)}
    (hinit : s.Initial) (hrun : exec (Sys.step T) s as = some t) {p : P} {c : Call}
    {frame : List UInt8} {m : NcmpMessage} (hp : t.prod p = .returned c (.ok (frame, m))) :
    .ok (frame, m) = ncmpSlotWaitDone c frame := by
  have hinv : OwnInv t ∧ ReturnsDecoded t := by
    refine exec_invariant (I := fun s => OwnInv s ∧ ReturnsDecoded s)
      (fun _ _ _ hinv h => ⟨hinv.1.step h, hinv.2.step hinv.1 h⟩) ⟨.of_initial hinit, ?_⟩ hrun
    intro q d f m' hq
    rw [hinit.idle q] at hq
    cases hq
  exact hinv.2 p c frame m hp

/-- Along every run of a slot, whatever the transport does, a call that returns a response gives its
caller an answer, and this is sound exactly when the frame fits. -/
theorem run_answerSound_iff [DecidableEq P] [DecidableEq C] {t : Sys σ P C}
    {as : List (Action T P C)} (hinit : s.Initial) (hrun : exec (Sys.step T) s as = some t) {p : P}
    {c : Call} {frame : List UInt8} {m : NcmpMessage}
    (hp : t.prod p = .returned c (.ok (frame, m))) {out : Option Buf}
    (hrsp : c.rsp = { NcmpMessage.zero with payload := out, payloadCap := outCap.toNat })
    (hout : outCap ≠ 0 → out.isSome) :
    ∃ a, ncmpClientCommandEnd (.ok (frame, m)) = .ok a ∧
      (AnswerSound frame out outCap a ↔ ResponseFits frame out outCap) := by
  refine ⟨answerTo frame out outCap, ?_, answerSound_iff frame out outCap hout⟩
  rw [returned_of_run hinit hrun hp, ncmpSlotWaitDone, hrsp]
  rfl

end Runs

/-- One call, and its answer. -/
theorem singleRun_answerSound :
    ∃ t c m a, exec (Sys.step token) Sys.withToken singleRun = some t ∧
      t.prod 0 = .returned c (.ok (plainAnswer, m)) ∧
      ncmpClientCommandEnd (.ok (plainAnswer, m)) = .ok a ∧ AnswerSound plainAnswer none 0 a := by
  obtain ⟨t, c, m, hrun, hp, hrsp⟩ : ∃ t c m,
      exec (Sys.step token) Sys.withToken singleRun = some t ∧ t.prod 0 = .returned c
        (.ok (plainAnswer, m)) ∧ c.rsp = { NcmpMessage.zero with payloadCap := UInt32.toNat 0 } :=
    ⟨_, _, _, rfl, rfl, rfl⟩
  obtain ⟨a, ha, hiff⟩ := run_answerSound_iff (Sys.create_initial _ _ _) hrun hp hrsp (absurd rfl)
  exact ⟨t, c, m, a, hrun, hp, ha, hiff.mpr ⟨by constructor <;> decide, by decide, by decide⟩⟩

end OpenCryptoki.Proofs.Ncmp
