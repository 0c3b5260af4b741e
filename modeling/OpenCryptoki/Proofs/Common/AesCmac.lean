import OpenCryptoki.Lib.Run
import OpenCryptoki.Common.AesCmac
import OpenCryptoki.Proofs.Common.Mac

/-!
# `OpenCryptoki.Proofs.Common.AesCmac`: the calls of the token for an AES-CMAC in parts

`Covers true msg calls` says what the token may rely on: `calls` are the message in order, the first
one and the last one are marked, all but the last one are full blocks, and the last one has at most
a block and is not empty, unless the message is.

`aes_cmac_in_parts` says that the update functions and a final function make such calls however the
message is cut. So with a token that does not mind how it gets the message (`Incremental`), the
final functions return and accept the MAC that `aes_cmac_sign` computes of the whole message.

The induction over the parts carries `Fed`: whatever calls complete the kept bytes complete the
calls that have been made.
-/

set_option autoImplicit false

namespace OpenCryptoki.Proofs.Common

open Lib OpenCryptoki.Common

/-- The calls of the token for a message, or for the rest of one that is not `first`. -/
inductive Covers : Bool → List UInt8 → List CmacCall → Prop
  | last {first : Bool} {bytes : List UInt8} (hle : bytes.length ≤ AES_BLOCK_SIZE)
      (hne : first = false → bytes ≠ []) : Covers first bytes [⟨bytes, first, true⟩]
  | blocks {first : Bool} {bytes rest : List UInt8} {calls : List CmacCall} (hne : bytes ≠ [])
      (hdvd : AES_BLOCK_SIZE ∣ bytes.length) (h : Covers false rest calls) :
      Covers first (bytes ++ rest) (⟨bytes, first, false⟩ :: calls)

section
variable {K W : Type}

/-- What the token has written after the calls, from the beginning. -/
def stateAfter (step : CmacState W → CmacCall → CmacState W) (calls : List CmacCall) :
    CmacState W :=
  calls.foldl step (CmacContext.zero W).state

/-- The key is there, and the token does not fail when it gets a message in one call or in calls
that it may rely on. -/
structure Works (tok : CmacToken K W) (key : Nat) (obj : KeyObject K)
    (step : CmacState W → CmacCall → CmacState W) : Prop where
  key : tok.findInMap key = .ok obj
  inOne : ∀ msg, tok.tAesCmac obj.value ⟨msg, true, true⟩ (stateAfter step []) =
    (none, stateAfter step [⟨msg, true, true⟩])
  inCalls : ∀ msg calls call calls', Covers true msg (calls ++ call :: calls') →
    tok.tAesCmac obj.value call (stateAfter step calls) = (none, stateAfter step (calls ++ [call]))

/-- The MAC after the calls, from the beginning. -/
def macAfter (step : CmacState W → CmacCall → CmacState W) (calls : List CmacCall) :
    Vector UInt8 AES_BLOCK_SIZE :=
  (stateAfter step calls).iv

/-- The token computes the same MAC however it gets the message. -/
def Incremental (step : CmacState W → CmacCall → CmacState W) : Prop :=
  ∀ msg calls, Covers true msg calls → macAfter step calls = macAfter step [⟨msg, true, true⟩]

/-- A successful update. -/
def cmacUpdateStep (tok : CmacToken K W) (key : Nat) (context : CmacContext W)
    (part : List UInt8) : Option (CmacContext W) :=
  match aesCmacUpdate tok key context part with
  | (.ok, context) => some context
  | _              => none

/-- A function that signs returns the MAC, with any buffer that is large enough. -/
def Signs (param : Option (MacLen AES_BLOCK_SIZE)) (mac : Vector UInt8 AES_BLOCK_SIZE)
    (sign : Out → SignResult (CmacContext W)) : Prop :=
  ∀ buf len, cmacLenOf param ≤ len → sign ⟨some buf, len⟩ =
    ⟨.ok, none, ⟨some (buf.write 0 (mac.toList.take (cmacLenOf param))), cmacLenOf param⟩⟩

/-- A function that verifies accepts the MAC and nothing else. -/
def Accepts (param : Option (MacLen AES_BLOCK_SIZE)) (mac : Vector UInt8 AES_BLOCK_SIZE)
    (verify : List UInt8 → CkRv × Option (CmacContext W)) : Prop :=
  ∀ signature, (verify signature).1 = .ok ↔ signature = mac.toList.take (cmacLenOf param)

variable {tok : CmacToken K W} {key : Nat} {obj : KeyObject K}
  {step : CmacState W → CmacCall → CmacState W} {param : Option (MacLen AES_BLOCK_SIZE)}
  {context : CmacContext W} {call : CmacCall}

section
variable {state : CmacState W} (hkey : tok.findInMap key = .ok obj)
  (hmac : tok.tAesCmac obj.value call context.state = (none, state))
include hkey hmac

/-- A call of the token that succeeds gives the signature. -/
theorem cmacSign_signs (failureEnds : Bool) :
    Signs param state.iv (cmacSign tok key param context call failureEnds) := by
  intro buf len hlen
  simp only [cmacSign, if_neg hlen.not_gt, hkey, hmac]

/-- A call of the token that succeeds gives the MAC that is accepted. -/
theorem cmacVerify_accepts :
    Accepts param state.iv (cmacVerify tok key param context call) := by
  intro signature
  simp only [cmacVerify, hkey, hmac]
  split
  · next hlen =>
    refine iff_of_false nofun fun h => hlen ?_
    rw [h, List.length_take_of_le]
    rw [Vector.length_toList]
    cases param with
    | none => exact le_rfl
    | some n => exact n.2.2
  · next hlen =>
    rw [not_not.mp hlen]
    split
    · next h => exact iff_of_true rfl h
    · next h => exact iff_of_false nofun h

end

/-! ### The update functions -/

open List

/-- The calls have been made for the bytes `done`, and the bytes `kept` are in the context. -/
structure Fed (step : CmacState W → CmacCall → CmacState W) (context : CmacContext W)
    (calls : List CmacCall) (done kept : List UInt8) : Prop where
  len : context.len.1 = kept.length
  data : context.data.read 0 context.len = kept
  state : context.state = stateAfter step calls
  kept_ne : context.initialized = true → kept ≠ []
  covers : ∀ rest calls', Covers (!context.initialized) rest calls' →
    Covers true (done ++ rest) (calls ++ calls')

/-- Before the first part, nothing has been done. -/
theorem fed_zero : Fed step (CmacContext.zero W) [] [] [] where
  len := rfl
  data := rfl
  state := rfl
  kept_ne := nofun
  covers _ _ h := h

/-- The bytes that are kept back, when there is more than a block. -/
theorem cmacRemain_spec {total : Nat} (h : AES_BLOCK_SIZE < total) :
    0 < (cmacRemain total).1 ∧ (cmacRemain total).1 + AES_BLOCK_SIZE ≤ total ∧
      AES_BLOCK_SIZE ∣ total - cmacRemain total := by
  rw [cmacRemain]
  split
  · next hmod =>
    rw [Fin.val_last]
    simp only [AES_BLOCK_SIZE] at *
    omega
  · next hmod =>
    simp only [AES_BLOCK_SIZE] at *
    omega

variable {calls : List CmacCall} {done kept : List UInt8}

/-- One part: its bytes are kept, or the token gets all the blocks but the last one. -/
theorem Fed.update {part : List UInt8} (hworks : Works tok key obj step)
    (hfed : Fed step context calls done kept) (hfits : part.length + AES_BLOCK_SIZE < 2 ^ 64) :
    ∃ context' calls' done' kept', cmacUpdateStep tok key context part = some context' ∧
      Fed step context' calls' done' kept' ∧ done' ++ kept' = done ++ kept ++ part := by
  have hlen := hfed.len
  have hover : ¬ part.length > ULONG_MAX - context.len := by
    rw [ULONG_MAX]
    omega
  by_cases hshort : context.len + part.length ≤ AES_BLOCK_SIZE
  · simp only [cmacUpdateStep, aesCmacUpdate, if_neg hover, dif_pos hshort]
    refine ⟨_, calls, done, kept ++ part, rfl, ⟨?_, ?_, hfed.state, ?_, hfed.covers⟩,
      (append_assoc _ _ _).symm⟩
    · rw [length_append, ← hlen]
    · rw [Buf.read_write_append, hfed.data]
    · exact fun h => append_ne_nil_of_left_ne_nil (hfed.kept_ne h) _
  · -- All kept bytes go to the token, with new ones that complete the blocks.
    obtain ⟨hpos, hle, hdvd⟩ := cmacRemain_spec (not_le.mp hshort)
    simp only [cmacUpdateStep, aesCmacUpdate, if_neg hover, dif_neg hshort, hworks.key, hfed.data]
    generalize cmacRemain (context.len + part.length) = remain at hpos hle hdvd
    have hcut : context.len + part.length - remain - context.len = part.length - remain := by omega
    have htail : (part.drop (part.length - remain)).length = remain := by
      rw [length_drop]
      omega
    have hcipher : (kept ++ part.take (part.length - remain)).length
        = context.len + part.length - remain := by
      rw [length_append, length_take, ← hlen]
      omega
    have hblocks {rest : List UInt8} {calls' : List CmacCall} (h : Covers false rest calls') :
        Covers true (done ++ (kept ++ part.take (part.length - remain) ++ rest))
          (calls ++ ⟨kept ++ part.take (part.length - remain), !context.initialized, false⟩ ::
            calls') :=
      hfed.covers _ _ (.blocks (ne_nil_of_length_pos (by omega)) (hcipher ▸ hdvd) h)
    have htail_ne : part.drop (part.length - remain) ≠ [] := ne_nil_of_length_pos (by omega)
    have hmac := hworks.inCalls _ _ _ _
      (hblocks (.last (by rw [htail]; exact Nat.le_of_lt_succ remain.isLt) fun _ => htail_ne))
    rw [hcut, hfed.state, hmac]
    refine ⟨_, calls ++ [⟨kept ++ part.take (part.length - remain), !context.initialized, false⟩],
      done ++ (kept ++ part.take (part.length - remain)), part.drop (part.length - remain), rfl,
      ⟨htail.symm, ?_, rfl, fun _ => htail_ne, fun rest calls' h => ?_⟩, ?_⟩
    · have hread := context.data.read_write 0 (part.drop (part.length - remain))
      rwa [htail] at hread
    · rw [append_assoc, append_assoc calls]
      exact hblocks h
    · rw [append_assoc, append_assoc, take_append_drop, append_assoc]

/-- All parts, by induction over them. -/
theorem Fed.updates {parts : List (List UInt8)} (hworks : Works tok key obj step)
    (hfed : Fed step context calls done kept)
    (hfits : ∀ part ∈ parts, part.length + AES_BLOCK_SIZE < 2 ^ 64) :
    ∃ context' calls' done' kept', exec (cmacUpdateStep tok key) context parts = some context' ∧
      Fed step context' calls' done' kept' ∧ done' ++ kept' = done ++ kept ++ parts.flatten := by
  induction parts generalizing context calls done kept with
  | nil => exact ⟨context, calls, done, kept, rfl, hfed, (append_nil _).symm⟩
  | cons part parts ih =>
    obtain ⟨context₁, calls₁, done₁, kept₁, hstep, hfed₁, hbytes₁⟩ :=
      hfed.update hworks (hfits part mem_cons_self)
    obtain ⟨context', calls', done', kept', hrun, hfed', hbytes⟩ :=
      ih hfed₁ fun p hp => hfits p (mem_cons_of_mem _ hp)
    refine ⟨context', calls', done', kept', exec_cons_eq_some.mpr ⟨context₁, hstep, hrun⟩,
      hfed', ?_⟩
    rw [hbytes, hbytes₁, flatten_cons, append_assoc]

/-- The last call completes the calls for the message. -/
theorem Fed.lastCall (hfed : Fed step context calls done kept) :
    Covers true (done ++ kept) (calls ++ [context.lastCall]) := by
  refine hfed.covers kept _ ?_
  rw [CmacContext.lastCall, hfed.data]
  refine .last ?_ fun h => hfed.kept_ne (by simpa using h)
  rw [← hfed.len]
  exact Nat.le_of_lt_succ context.len.isLt

/-- A message in parts, of any lengths. The token gets the message in calls that it may rely on,
and the final functions return and accept the MAC after these calls. If the token computes the same
MAC however it gets a message, this is the MAC that `aes_cmac_sign` returns and `aes_cmac_verify`
accepts for the whole message. -/
theorem aes_cmac_in_parts (hworks : Works tok key obj step)
    (param : Option (MacLen AES_BLOCK_SIZE)) (parts : List (List UInt8))
    (hfits : ∀ part ∈ parts, part.length + AES_BLOCK_SIZE < 2 ^ 64) :
    ∃ context calls, exec (cmacUpdateStep tok key) (.zero W) parts = some context ∧
      context.state = stateAfter step calls ∧
      Covers true parts.flatten (calls ++ [context.lastCall]) ∧
      Signs param (macAfter step (calls ++ [context.lastCall]))
        (aesCmacSignFinal tok key param context) ∧
      Accepts param (macAfter step (calls ++ [context.lastCall]))
        (aesCmacVerifyFinal tok key param context) ∧
      (Incremental step →
        Signs param (macAfter step (calls ++ [context.lastCall]))
          (aesCmacSign tok key param (.zero W) parts.flatten) ∧
        Accepts param (macAfter step (calls ++ [context.lastCall]))
          (aesCmacVerify tok key param (.zero W) parts.flatten)) := by
  obtain ⟨context, calls, done, kept, hrun, hfed, hbytes⟩ := fed_zero.updates hworks hfits
  have hcovers := hfed.lastCall
  rw [hbytes] at hcovers
  have hlast := hworks.inCalls _ _ _ _ hcovers
  rw [← hfed.state] at hlast
  refine ⟨context, calls, hrun, hfed.state, hcovers, cmacSign_signs hworks.key hlast true,
    cmacVerify_accepts hworks.key hlast, fun hincremental => ?_⟩
  rw [hincremental _ _ hcovers]
  exact ⟨cmacSign_signs hworks.key (hworks.inOne _) false,
    cmacVerify_accepts hworks.key (hworks.inOne _)⟩

end

/-- A token that adds up the bytes of its calls. -/
def sumStep (s : CmacState Unit) (call : CmacCall) : CmacState Unit :=
  { s with iv := s.iv.map fun b => call.message.foldl (· + ·) b }

/-- The token has one key and does not fail. -/
def sumToken : CmacToken Unit Unit :=
  ⟨fun _ => .ok plainKey, fun _ call s => (none, sumStep s call)⟩

/-- `sumToken` works with its key. -/
theorem works_sumToken : Works sumToken 1 plainKey sumStep where
  key := rfl
  inOne _ := rfl
  inCalls _ calls call _ _ := by
    rw [stateAfter, stateAfter, List.foldl_append]
    rfl

/-- The sum does not depend on the calls. -/
theorem incremental_sumStep : Incremental sumStep := by
  have hsum {first : Bool} {msg : List UInt8} {calls : List CmacCall}
      (h : Covers first msg calls) (s : CmacState Unit) :
      calls.foldl sumStep s = sumStep s ⟨msg, first, true⟩ := by
    induction h generalizing s with
    | last => rfl
    | blocks hne hdvd h ih =>
      rw [List.foldl_cons, ih]
      simp [sumStep, Function.comp_def]
  intro msg calls h
  exact congrArg CmacState.iv (hsum h _)

/-- A message of 21 bytes in three parts: its MAC is the sum, as for the message in one call. -/
theorem aes_cmac_in_parts_sum :
    ∃ context, exec (cmacUpdateStep sumToken 1) (.zero Unit)
        [List.replicate 16 7, [], [1, 2, 3, 4, 5]] = some context ∧
      Signs none (Vector.replicate 16 127) (aesCmacSignFinal sumToken 1 none context) ∧
      Accepts none (Vector.replicate 16 127) (aesCmacVerifyFinal sumToken 1 none context) ∧
      Signs none (Vector.replicate 16 127) (aesCmacSign sumToken 1 none (.zero Unit)
        (List.replicate 16 7 ++ [1, 2, 3, 4, 5])) := by
  obtain ⟨context, calls, hrun, -, hcovers, hsigns, haccepts, hwhole⟩ :=
    aes_cmac_in_parts works_sumToken none [List.replicate 16 7, [], [1, 2, 3, 4, 5]] (by decide)
  have hmac : macAfter sumStep (calls ++ [context.lastCall]) = Vector.replicate 16 127 := by
    rw [incremental_sumStep _ _ hcovers]
    show (Vector.replicate 16 0).map _ = _
    rw [Vector.map_replicate]
    rfl
  rw [hmac] at hsigns haccepts hwhole
  exact ⟨context, hrun, hsigns, haccepts, (hwhole incremental_sumStep).1⟩

end OpenCryptoki.Proofs.Common
