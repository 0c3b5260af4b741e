import OpenCryptoki.Proofs.Common.Mac
import OpenCryptoki.Proofs.Common.SignRetry

/-!
# `OpenCryptoki.Proofs.Common.SignRetryLoss`: what a call with a small buffer loses

The converse of `OpenCryptoki.Proofs.Common.SignRetry`, and the main theorem `harmless_iff`.

- `C_Sign` with a MAC absorbs the message and then finds the buffer too small. After `k` such
  calls the MAC is that of `k + 1` copies of the message (`attempts_absorb`). For each message
  that is not excluded there is a token whose MAC tells the copies from the message: one that
  knows the first block, or one that counts the blocks.
- `C_SignFinal` with RSA and a digest ends the digest and then finds the buffer too small.
  With PKCS #1 the next call returns `CKR_OPERATION_NOT_INITIALIZED`. With PSS it signs the
  hash of the empty message.

The token of each construction is an honest one: its MAC iterates a step over the blocks, or its
hash is a function of the data.
-/

set_option autoImplicit false

namespace OpenCryptoki.Proofs.Common

open Lib OpenCryptoki.Common
open List (replicate)

/-! ### The functions that sign with a MAC -/

section
variable {K : Type} {bs : Nat} {tok : MacToken K bs} {key : Nat} {param : Option (MacLen bs)}
  {step : Vector UInt8 bs → List UInt8 → Vector UInt8 bs} {context : DataContext bs}
  {msg : List UInt8} {buf : Buf} {outLen : Nat}

/-- What is returned for a MAC: its first bytes, at the start of the buffer. -/
def macOut (param : Option (MacLen bs)) (mac : Vector UInt8 bs) (buf : Buf) : Out :=
  ⟨some (buf.write 0 (mac.toList.take (macLenOf param))), macLenOf param⟩

/-- The final function returns the MAC of what has been absorbed, if the buffer is large enough.
After full blocks it also does so if the buffer is too small, and writes past its end. -/
theorem macSignFinal_ok (htok : Iterates tok key step) (habs : Absorbed step context msg)
    (h : bs ∣ msg.length ∨ macLenOf param ≤ outLen) :
    macSignFinal tok key param context ⟨some buf, outLen⟩
      = ⟨.ok, none, macOut param (cbcMac bs step msg) buf⟩ := by
  have hlen := habs.len
  by_cases hdvd : bs ∣ msg.length
  · have hzero : ¬ 0 < context.len.1 := by
      rw [hlen, Nat.mod_eq_zero_of_dvd hdvd]
      exact lt_irrefl 0
    simp only [macSignFinal, if_neg hzero, habs.iv_eq hdvd]
    rfl
  · have hpos : 0 < context.len.1 :=
      Nat.pos_of_ne_zero fun hzero => hdvd (Nat.dvd_of_mod_eq_zero (hlen ▸ hzero))
    have hlarge : ¬ outLen < macLenOf param := not_lt.mpr (h.resolve_left hdvd)
    obtain ⟨obj, hkey, hmac⟩ := htok
    obtain ⟨hblock, hpadded⟩ := habs.foldBlocks_padded hdvd
    have hstep := hmac _ context.iv ⟨1, by rw [hblock, mul_one]⟩
    rw [hpadded] at hstep
    simp only [macSignFinal, if_pos hpos, if_neg hlarge, hkey, hstep]
    rfl

/-- With kept bytes the length is compared. -/
theorem macSignFinal_small (habs : Absorbed step context msg) (hdvd : ¬ bs ∣ msg.length)
    (h : outLen < macLenOf param) :
    macSignFinal tok key param context ⟨some buf, outLen⟩
      = ⟨.bufferTooSmall, some context, ⟨some buf, macLenOf param⟩⟩ := by
  have hpos : 0 < context.len.1 :=
    Nat.pos_of_ne_zero fun hzero => hdvd (Nat.dvd_of_mod_eq_zero (habs.len ▸ hzero))
  simp only [macSignFinal, if_pos hpos, if_pos h]

variable {inData : List UInt8}

/-- In one call, data that is not a number of full blocks is absorbed after what has been
absorbed before, and the final function decides. -/
theorem macSign_eq_final (param : Option (MacLen bs)) (buf : Buf) (outLen : Nat)
    (htok : Iterates tok key step) (habs : Absorbed step context msg)
    (hfits : inData.length + bs ≤ 2 ^ 64) (hmod : ¬ bs ∣ inData.length) :
    ∃ context', Absorbed step context' (msg ++ inData) ∧
      macSign tok key param context inData ⟨some buf, outLen⟩
        = macSignFinal tok key param context' ⟨some buf, outLen⟩ := by
  obtain ⟨context', hupdate, habs'⟩ := macUpdate_absorbed htok habs hfits
  exact ⟨context', habs', macSign_of_update (fun h => hmod (Nat.dvd_of_mod_eq_zero h)) hupdate⟩

end

/-! ### Attempts absorb the message again -/

/-- A buffer that is too small for anything. -/
def noRoom : Attempt := ⟨fun _ => 0, 0, []⟩

/-- A buffer that is large enough for a MAC or a signature. -/
def room : Attempt := ⟨fun _ => 0, 128, []⟩

/-- The message, `k` times. -/
def copies (k : Nat) (data : List UInt8) : List UInt8 := (List.replicate k data).flatten

/-- One more copy of the data. -/
theorem copies_succ (k : Nat) (data : List UInt8) :
    copies (k + 1) data = copies k data ++ data := by
  simp [copies, List.replicate_succ']

/-- The length of copies of the data. -/
theorem length_copies (k : Nat) (data : List UInt8) : (copies k data).length = k * data.length := by
  simp [copies]

section
variable {K D : Type} {tok : Token K D} {m : MacMechanism}
  {step : Vector UInt8 m.blockSize → List UInt8 → Vector UInt8 m.blockSize}

/-- An operation that is not one in parts, and whose work area has absorbed `msg`. -/
structure HasAbsorbed (tok : Token K D)
    (step : Vector UInt8 m.blockSize → List UInt8 → Vector UInt8 m.blockSize)
    (c : SignCtx D (.mac m)) (msg : List UInt8) : Prop where
  recover : c.recover = false
  authRequired : c.authRequired = false
  single : c.multiInit = true → c.multi = false
  param : c.param = none
  token : Iterates (tok.mac m) c.key step
  absorbed : Absorbed step c.context msg

section
variable {c : SignCtx D (.mac m)} {msg data : List UInt8} (hc : HasAbsorbed tok step c msg)
include hc

/-- One more `C_Sign` absorbs the data once more, and the final function decides. -/
theorem HasAbsorbed.finishOp_single (hfits : data.length < 2 ^ 63)
    (hmod : ¬ m.blockSize ∣ data.length) (a : Attempt) :
    ∃ context, Absorbed step context (msg ++ data) ∧ finishOp tok (.single data) c a
        = .ofContext (asSingle c) (macSignFinal (tok.mac m) c.key none context a.out) := by
  obtain ⟨context, habs, hsign⟩ := macSign_eq_final none a.buf a.len hc.token hc.absorbed
    (fits_blockSize m hfits) hmod
  refine ⟨context, habs, ?_⟩
  have hswitch := signMgrSign_eq tok hc.recover hc.single data a.salt a.out
  rw [hc.authRequired] at hswitch
  rw [finishOp, hswitch, Attempt.out, ← hsign, ← hc.param, ← macSignSwitch_eq]
  rfl

omit hc in
/-- An attempt with a buffer that is too small. -/
theorem tooSmallStep_of_small {m : Mechanism} {input : Input} {ctx c : SignCtx D m} {a : Attempt}
    (hinit : tok.initialized = true) (hsmall : (finishOp tok input ctx a).rc = .bufferTooSmall)
    (hctx : (finishOp tok input ctx a).ctx = some c) :
    tooSmallStep tok input (some ⟨some ctx⟩) a = some (some ⟨some c⟩) := by
  unfold tooSmallStep
  rw [finishCall_some hinit, endOfSign_rc, if_pos hsmall, endOfSign_sess hsmall, hctx]

/-- An attempt without room absorbs the data once more. -/
theorem HasAbsorbed.tooSmallStep_noRoom (hinit : tok.initialized = true)
    (hfits : data.length < 2 ^ 63) (hmod : ¬ m.blockSize ∣ data.length)
    (hrest : ¬ m.blockSize ∣ (msg ++ data).length) :
    ∃ c', tooSmallStep tok (.single data) (some ⟨some c⟩) noRoom = some (some ⟨some c'⟩) ∧
      HasAbsorbed tok step c' (msg ++ data) := by
  obtain ⟨context, habs, hop⟩ := hc.finishOp_single hfits hmod noRoom
  have hfinal : macSignFinal (tok.mac m) c.key none context noRoom.out = _ :=
    macSignFinal_small habs hrest (macLenOf_pos none)
  rw [hfinal] at hop
  refine ⟨{ asSingle c with context := context }, ?_, ?_⟩
  · refine tooSmallStep_of_small hinit ?_ ?_
    · rw [hop]
      rfl
    · rw [hop]
      rfl
  · exact ⟨hc.recover, hc.authRequired, fun _ => rfl, hc.param, hc.token, habs⟩

omit hc in
/-- `k` attempts absorb `k` copies of the message, as long as none of them ends at the end of a
block. -/
theorem attempts_absorb {ctx : SignCtx D (.mac m)} {data : List UInt8}
    (hctx : HasAbsorbed tok step ctx []) (hinit : tok.initialized = true)
    (hfits : data.length < 2 ^ 63) {k : Nat}
    (hrest : ∀ j < k, ¬ m.blockSize ∣ (copies (j + 1) data).length) :
    ∃ c, exec (tooSmallStep tok (.single data)) (some ⟨some ctx⟩) (replicate k noRoom)
        = some (some ⟨some c⟩) ∧ HasAbsorbed tok step c (copies k data) := by
  induction k with
  | zero => exact ⟨ctx, rfl, hctx⟩
  | succ k ih =>
    obtain ⟨c, hrun, hc⟩ := ih fun j hj => hrest j (Nat.lt_succ_of_lt hj)
    have hmod : ¬ m.blockSize ∣ data.length := by
      have hfirst := hrest 0 (Nat.zero_lt_succ k)
      rwa [length_copies, zero_add, one_mul] at hfirst
    have hlast := hrest k (Nat.lt_succ_self k)
    rw [copies_succ] at hlast ⊢
    obtain ⟨c', hstep, hc'⟩ := hc.tooSmallStep_noRoom hinit hfits hmod hlast
    refine ⟨c', ?_, hc'⟩
    rw [List.replicate_succ', exec_append, hrun]
    exact (exec_cons _ _ _ _).trans (by rw [hstep]; rfl)

/-- A large enough buffer then gets the MAC of the copies. -/
theorem HasAbsorbed.finishCall_room (hinit : tok.initialized = true) (hfits : data.length < 2 ^ 63)
    (hmod : ¬ m.blockSize ∣ data.length) :
    (finishCall tok (.single data) (some ⟨some c⟩) room).rc = .ok ∧
      (finishCall tok (.single data) (some ⟨some c⟩) room).out
        = macOut none (cbcMac m.blockSize step (msg ++ data)) room.buf := by
  obtain ⟨context, habs, hop⟩ := hc.finishOp_single hfits hmod room
  have hroom : macLenOf (none : Option (MacLen m.blockSize)) ≤ 128 := by cases m <;> decide
  have hfinal : macSignFinal (tok.mac m) c.key none context room.out = _ :=
    macSignFinal_ok hc.token habs (.inr hroom)
  rw [finishCall_some hinit, endOfSign_rc, endOfSign_out, hop, hfinal]
  exact ⟨rfl, rfl⟩

end

end

section
variable {m : MacMechanism}
  {step : Vector UInt8 m.blockSize → List UInt8 → Vector UInt8 m.blockSize} {data : List UInt8}

/-- The token that iterates `step` for the block size of a mechanism. -/
def stepToken : (m : MacMechanism) →
    (Vector UInt8 m.blockSize → List UInt8 → Vector UInt8 m.blockSize) → Token Unit (List UInt8)
  | .aesMac, step | .aesMacGeneral, step   => plainToken step (xorStep _) fun _ data => data
  | .des3Mac, step | .des3MacGeneral, step => plainToken (xorStep _) step fun _ data => data

/-- The context of `sign_mgr_init` with this token. -/
def freshSignCtx (m : MacMechanism) : SignCtx (List UInt8) (.mac m) where
  key := 1
  param := none
  ulParameterLen := 0
  context := DataContext.zero m.blockSize
  multi := false
  multiInit := false
  recover := false
  authRequired := false

/-- The token of a step function works block by block. -/
theorem iterates_stepToken (key : Nat) : Iterates ((stepToken m step).mac m) key step := by
  cases m <;> exact ⟨plainKey, rfl, fun _ _ _ => rfl⟩

/-- An operation of this token has been started. -/
theorem started_stepToken :
    Started (stepToken m step) ⟨none, 0⟩ 1 (.single data) (some ⟨some (freshSignCtx m)⟩) := by
  refine ⟨_, ?_, rfl⟩
  cases m <;> rfl

variable {bs : Nat}

/-- Two MACs that are written alike agree in the bytes that are returned. -/
theorem take_eq_of_macOut_eq {param : Option (MacLen bs)} {x y : Vector UInt8 bs} {buf : Buf}
    (h : macOut param x buf = macOut param y buf) :
    x.toList.take (macLenOf param) = y.toList.take (macLenOf param) := by
  have hwrite := Option.some.inj (congrArg Out.pSignature h)
  have hx := Buf.read_write_append buf 0 (x.toList.take (macLenOf param))
  have hy := Buf.read_write_append buf 0 (y.toList.take (macLenOf param))
  rw [length_take_toList _ (macLenOf_le param)] at hx hy
  rw [hwrite] at hx
  exact hx.symm.trans hy

/-- If the MAC of some copies differs from that of the message, attempts are not harmless. -/
theorem not_harmless_of_copies (hfits : data.length < 2 ^ 63) (hmod : ¬ m.blockSize ∣ data.length)
    {k : Nat} (hrest : ∀ j < k, ¬ m.blockSize ∣ (copies (j + 1) data).length)
    {x y : UInt8} (hxy : x ≠ y)
    (hx : cbcMac m.blockSize step data = Vector.replicate m.blockSize x)
    (hy : cbcMac m.blockSize step (copies (k + 1) data) = Vector.replicate m.blockSize y) :
    ¬ Harmless (.mac m) (.single data) := by
  intro hharmless
  have hinit : (stepToken m step).initialized = true := by cases m <;> rfl
  have hctx : HasAbsorbed (stepToken m step) step (freshSignCtx m) [] :=
    ⟨rfl, rfl, nofun, rfl, iterates_stepToken 1, absorbed_zero⟩
  obtain ⟨c, hrun, hc⟩ := attempts_absorb hctx hinit hfits hrest
  obtain ⟨hok, hout⟩ := hctx.finishCall_room hinit hfits hmod
  obtain ⟨hok', hout'⟩ := hc.finishCall_room hinit hfits hmod
  have hsame := (hharmless _ _ _ _ _ _ _ _ started_stepToken hrun).2 room hok
  rw [hout, hout', ← copies_succ, hy, List.nil_append, hx] at hsame
  have htake := take_eq_of_macOut_eq hsame.2
  rw [Vector.toList_replicate, Vector.toList_replicate, List.take_replicate, List.take_replicate,
    min_eq_left (macLenOf_le _)] at htake
  have hpos : macLenOf (none : Option (MacLen m.blockSize)) ≠ 0 := Nat.ne_of_gt (macLenOf_pos none)
  exact hxy ((List.replicate_inj.mp htake).2.resolve_left hpos).symm

/-! ### A token that knows the first block -/

/-- The step of a MAC that only tells whether a block is the given one. -/
def knownStep (bs : Nat) (known : List UInt8) (_ : Vector UInt8 bs) (block : List UInt8) :
    Vector UInt8 bs :=
  Vector.replicate bs (if block = known then 1 else 0)

/-- The message and the message twice are the same block only if the message is one of zeros. -/
theorem eq_zeros_of_pad_eq (h : pad bs 0 (data ++ data) = pad bs 0 data) :
    data = replicate data.length 0 := by
  rw [pad, pad, List.append_assoc] at h
  have hrest := List.append_cancel_left h
  refine List.eq_replicate_iff.mpr ⟨rfl, fun b hb => ?_⟩
  exact List.eq_of_mem_replicate (hrest ▸ List.mem_append_left _ hb)

/-- At most a block is one step. -/
theorem cbcMac_of_le {step : Vector UInt8 bs → List UInt8 → Vector UInt8 bs} {msg : List UInt8}
    (hpos : 0 < msg.length) (hle : msg.length ≤ bs) :
    cbcMac bs step msg = step (Vector.replicate bs 0) (pad bs 0 msg) := by
  have hbs : 0 < bs := hpos.trans_le hle
  obtain ⟨k, hk⟩ := dvd_length_pad hbs 0 msg
  have hge := length_le_length_pad bs 0 msg
  have hlt := length_pad_lt hbs 0 msg
  have hone : k = 1 := by
    have hlower : k ≠ 0 := by
      rintro rfl
      rw [mul_zero] at hk
      omega
    have hupper : k < 2 := Nat.lt_of_mul_lt_mul_left (a := bs) (by omega)
    omega
  rw [hone, mul_one] at hk
  exact foldBlocks_block hbs hk

/-- A message that fills a block by repetition is not harmless. -/
theorem not_harmless_of_dvd (hdvd : data.length ∣ m.blockSize) (hlt : data.length < m.blockSize)
    (hzeros : data ≠ replicate data.length 0) : ¬ Harmless (.mac m) (.single data) := by
  have hpos : 0 < m.blockSize := Nat.zero_lt_of_lt hlt
  have hdata : 0 < data.length := Nat.pos_of_dvd_of_pos hdvd hpos
  have htwo : 2 * data.length ≤ m.blockSize := by
    obtain ⟨k, hk⟩ := hdvd
    match k with
    | 0 | 1 => omega
    | k + 2 =>
      rw [hk, mul_add]
      omega
  have hmod : ¬ m.blockSize ∣ data.length := fun h => absurd (Nat.le_of_dvd hdata h) (by omega)
  have hblock : m.blockSize ≤ 16 := by cases m <;> decide
  have hmac : ∀ msg : List UInt8, 0 < msg.length → msg.length ≤ m.blockSize →
      cbcMac m.blockSize (knownStep _ (pad m.blockSize 0 data)) msg
        = Vector.replicate _ (if pad m.blockSize 0 msg = pad m.blockSize 0 data then 1 else 0) :=
    fun msg hmsg hle => cbcMac_of_le hmsg hle
  have hcopies : copies (1 + 1) data = data ++ data := by simp [copies]
  refine not_harmless_of_copies (k := 1) (by omega) hmod ?_ (x := 1) (y := 0) (by decide)
    ((hmac data hdata (by omega)).trans ?_) ((hmac _ ?_ ?_).trans ?_)
  · intro j hj
    rwa [Nat.lt_one_iff.mp hj, length_copies, zero_add, one_mul]
  · rw [if_pos rfl]
  · rw [length_copies]; omega
  · rw [length_copies]; omega
  · rw [hcopies, if_neg fun h => hzeros (eq_zeros_of_pad_eq h)]

/-! ### A token that counts the blocks -/

/-- The step of a MAC that counts the blocks modulo `d`. -/
def countStep (bs d : Nat) (iv : Vector UInt8 bs) (_ : List UInt8) : Vector UInt8 bs :=
  Vector.replicate bs (UInt8.ofNat (((iv.toList.headD 0).toNat + 1) % d))

/-- The step that counts blocks. -/
theorem foldChunks_countStep {bs d : Nat} (hbs : 0 < bs) (hd : 0 < d) (hle : d ≤ 256) (k j : Nat)
    (xs : List UInt8) :
    foldChunks bs (countStep bs d) k (Vector.replicate bs (UInt8.ofNat (j % d))) xs
      = Vector.replicate bs (UInt8.ofNat ((j + k) % d)) := by
  induction k generalizing j xs with
  | zero => rfl
  | succ k ih =>
    have hstep : countStep bs d (Vector.replicate bs (UInt8.ofNat (j % d))) (xs.take bs)
        = Vector.replicate bs (UInt8.ofNat ((j + 1) % d)) := by
      have hlt : j % d < 256 := lt_of_lt_of_le (Nat.mod_lt j hd) hle
      obtain ⟨n, rfl⟩ : ∃ n, bs = n + 1 := ⟨bs - 1, by omega⟩
      rw [countStep, Vector.toList_replicate, List.replicate_succ, List.headD_cons,
        UInt8.toNat_ofNat_of_lt' hlt, Nat.mod_add_mod]
    rw [foldChunks, hstep, ih, add_assoc, add_comm 1 k]

/-- The MAC is the number of blocks. -/
theorem cbcMac_countStep {bs d : Nat} (hbs : 0 < bs) (hd : 0 < d) (hle : d ≤ 256)
    (msg : List UInt8) :
    cbcMac bs (countStep bs d) msg
      = Vector.replicate bs (UInt8.ofNat ((pad bs 0 msg).length / bs % d)) := by
  have hcount := foldChunks_countStep hbs hd hle ((pad bs 0 msg).length / bs) 0 (pad bs 0 msg)
  rwa [Nat.zero_mod, zero_add] at hcount

/-- Every number of blocks that is not zero is not zero modulo some number up to 256. -/
theorem exists_not_dvd {n : Nat} (hpos : 0 < n) (hlt : n < 2 ^ 65) :
    ∃ d, 0 < d ∧ d ≤ 256 ∧ ¬ d ∣ n := by
  by_contra h
  have hdvd : ∀ d, 0 < d → d ≤ 256 → d ∣ n := by
    intro d hd hle
    by_contra hnd
    exact h ⟨d, hd, hle, hnd⟩
  -- The least common multiple of these numbers is greater than `2 ^ 65`.
  have hlcm : [256, 255, 253, 251, 247, 241, 239, 233, 229].foldr Nat.lcm 1 ∣ n := by
    repeat' first
      | exact Nat.one_dvd n
      | refine Nat.lcm_dvd (hdvd _ (by decide) (by decide)) ?_
  have hle := Nat.le_of_dvd hpos hlcm
  have hbig : 2 ^ 65 ≤ [256, 255, 253, 251, 247, 241, 239, 233, 229].foldr Nat.lcm 1 := by decide
  omega

/-- The number of attempts after which the message and the copies differ by at least a block. -/
def attemptsFor (bs n : Nat) : Nat := bs / n + 1

/-- The attempts fill the last block. -/
theorem attemptsFor_mul {bs n : Nat} : attemptsFor bs n * n = bs - bs % n + n := by
  have hdiv := Nat.div_add_mod bs n
  rw [attemptsFor, add_mul, one_mul, mul_comm]
  omega

/-- None of these attempts ends at the end of a block. -/
theorem not_dvd_copies {bs n : Nat} (hn : ¬ n ∣ bs) (hbs : ¬ bs ∣ n) {j : Nat}
    (hj : j < attemptsFor bs n) : ¬ bs ∣ (j + 1) * n := by
  have hpos : 0 < n := Nat.pos_of_ne_zero fun h => hbs (h ▸ Nat.dvd_zero bs)
  have hlt := Nat.mod_lt bs hpos
  have htotal : bs / n * n + bs % n = bs := Nat.div_add_mod' bs n
  rcases lt_or_ge bs n with hlong | hshort
  · -- More than a block: there is one attempt.
    rw [attemptsFor, Nat.div_eq_of_lt hlong] at hj
    rwa [Nat.lt_one_iff.mp hj, zero_add, one_mul]
  · rcases lt_or_eq_of_le (Nat.lt_succ_iff.mp hj) with hbefore | rfl
    · -- All copies so far are less than a block.
      have hle : (j + 1) * n ≤ bs / n * n := Nat.mul_le_mul_right n hbefore
      have hone : 0 < (j + 1) * n := mul_pos (Nat.succ_pos j) hpos
      exact Nat.not_dvd_of_pos_of_lt hone (by omega)
    · -- The last copy goes from the first block to the second one.
      refine Nat.not_dvd_of_lt_of_lt_mul_succ (k := 1) ?_ ?_
      all_goals
        rw [add_mul, one_mul]
        omega

/-- The length after these attempts and the last call. -/
theorem length_copies_attemptsFor (bs : Nat) (data : List UInt8) :
    (copies (attemptsFor bs data.length + 1) data).length
      = bs - bs % data.length + data.length + data.length := by
  rw [length_copies, add_mul, one_mul, attemptsFor_mul]

/-- The copies are more blocks than the message. -/
theorem blocks_lt_blocks_copies (hbs : 0 < bs) (hpos : 0 < data.length) :
    (pad bs 0 data).length / bs
      < (pad bs 0 (copies (attemptsFor bs data.length + 1) data)).length / bs := by
  have hlen := length_copies_attemptsFor bs data
  have hmod := Nat.mod_lt bs hpos
  have hupper := length_pad_lt hbs 0 data
  have hlower := length_le_length_pad bs 0 (copies (attemptsFor bs data.length + 1) data)
  obtain ⟨a, ha⟩ := dvd_length_pad hbs 0 data
  obtain ⟨b, hb⟩ := dvd_length_pad hbs 0 (copies (attemptsFor bs data.length + 1) data)
  rw [ha] at hupper ⊢
  rw [hb] at hlower ⊢
  rw [Nat.mul_div_cancel_left _ hbs, Nat.mul_div_cancel_left _ hbs]
  exact Nat.lt_of_mul_lt_mul_left (a := bs) (by omega)

/-- A message that fills no block by repetition is not harmless either. -/
theorem not_harmless_of_not_dvd (hfits : data.length < 2 ^ 63)
    (hmod : ¬ m.blockSize ∣ data.length) (hn : ¬ data.length ∣ m.blockSize) :
    ¬ Harmless (.mac m) (.single data) := by
  have hbs : 0 < m.blockSize := Nat.pos_of_neZero _
  have hle : m.blockSize ≤ 16 := by cases m <;> decide
  have hpos : 0 < data.length := Nat.pos_of_ne_zero fun h => hmod (h ▸ Nat.dvd_zero _)
  have hlt := blocks_lt_blocks_copies hbs hpos
  have hbound : (pad m.blockSize 0 (copies (attemptsFor m.blockSize data.length + 1) data)).length /
      m.blockSize < 2 ^ 65 := by
    have hlen := length_copies_attemptsFor m.blockSize data
    have hupper := length_pad_lt hbs 0 (copies (attemptsFor m.blockSize data.length + 1) data)
    refine lt_of_le_of_lt (Nat.div_le_self _ m.blockSize) ?_
    omega
  obtain ⟨d, hd, hd256, hnd⟩ := exists_not_dvd (Nat.sub_pos_of_lt hlt)
    (lt_of_le_of_lt (Nat.sub_le _ _) hbound)
  refine not_harmless_of_copies (k := attemptsFor m.blockSize data.length) hfits hmod
    (fun j hj => ?_) (fun heq => hnd ?_) (cbcMac_countStep hbs hd hd256 data)
    (cbcMac_countStep hbs hd hd256 _)
  · rw [length_copies]
    exact not_dvd_copies hn hmod hj
  · have hbyte : ∀ n, n % d < 256 := fun n => lt_of_lt_of_le (Nat.mod_lt n hd) hd256
    have heq' := congrArg UInt8.toNat heq
    rw [UInt8.toNat_ofNat_of_lt' (hbyte _), UInt8.toNat_ofNat_of_lt' (hbyte _)] at heq'
    exact Nat.dvd_of_mod_eq_zero (Nat.sub_mod_eq_zero_of_mod_eq heq'.symm)

end

/-! ### RSA with a digest, in parts -/

section
variable {K D : Type} {tok : Token K D} {m : Mechanism} {d : DigestMechanism} {key : Nat}

/-- If each part is appended to what the context stands for, the parts give their
concatenation. -/
theorem started_of_updates {mech : CkMechanism m} (fresh : SignCtx D m)
    (f : List UInt8 → SignCtx D m) (hinit : tok.initialized = true)
    (hfresh : scSignInit tok (some ⟨none⟩) mech key = (.ok, some ⟨some fresh⟩))
    (hfirst : ∀ p, signMgrSignUpdate tok fresh p = (.ok, f p))
    (hnext : ∀ s p, signMgrSignUpdate tok (f s) p = (.ok, f (s ++ p)))
    {ps : List (List UInt8)} (hne : ps ≠ []) :
    Started tok mech key (.parts ps) (some ⟨some (f ps.flatten)⟩) := by
  have hstep : ∀ (c c' : SignCtx D m) p, signMgrSignUpdate tok c p = (.ok, c') →
      updateStep tok (some ⟨some c⟩) p = some (some ⟨some c'⟩) := by
    intro c c' p hupdate
    simp [updateStep, scSignUpdate, hinit, hupdate]
  have hrun : ∀ ps s, exec (updateStep tok) (some ⟨some (f s)⟩) ps
      = some (some ⟨some (f (s ++ ps.flatten))⟩) := by
    intro ps
    induction ps with
    | nil => simp
    | cons p ps ih =>
      intro s
      rw [exec_cons, hstep _ _ _ (hnext s p), List.flatten_cons, ← List.append_assoc]
      exact ih (s ++ p)
  refine ⟨_, hfresh, ?_⟩
  obtain ⟨p, ps, rfl⟩ := List.exists_cons_of_ne_nil hne
  show exec (updateStep tok) _ (p :: ps) = _
  rw [exec_cons, hstep _ _ _ (hfirst p), List.flatten_cons]
  exact hrun ps p

/-- The hash of an active digest is encoded and signed, and the digest is over. -/
theorem rsaHashPkcsSignFinal_active (tok : Token K D) (d : DigestMechanism) (key : Nat) (s : D)
    (buf : Buf) (outLen : Nat) :
    rsaHashPkcsSignFinal tok d key ⟨some ⟨d, true, true, s⟩, true⟩ ⟨some buf, outLen⟩
      = match tok.hashFinal d s with
        | .error f => ⟨f.rc, some ⟨none, true⟩, ⟨some buf, outLen⟩⟩
        | .ok hash => .ofOut ⟨none, true⟩ (signEncodedHash tok d key hash ⟨some buf, outLen⟩) := by
  have hmax : getShaSize d ≤ MAX_SHA_HASH_SIZE := by cases d <;> decide
  have hdigest := digestMgrDigestFinal_active tok s hmax
  rcases hfinal : tok.hashFinal d s with f | hash
  · rw [hfinal] at hdigest
    simp [rsaHashPkcsSignFinal, hdigest]
  · rw [hfinal] at hdigest
    simp [rsaHashPkcsSignFinal, hdigest, SignResult.ofOut]

end

/-- An attempt that leads to a context from which a call fails or has another output. -/
theorem not_harmless_of_attempt {K D : Type} {tok : Token K D} {m : Mechanism} {input : Input}
    {mech : CkMechanism m} {key : Nat} {ctx c : SignCtx D m} (hinit : tok.initialized = true)
    (hstarted : Started tok mech key input (some ⟨some ctx⟩))
    (hsmall : (finishOp tok input ctx noRoom).rc = .bufferTooSmall)
    (hctx : (finishOp tok input ctx noRoom).ctx = some c)
    (hfirst : (finishOp tok input ctx room).rc = .ok)
    (hagain : (finishOp tok input c room).rc = .ok →
      (finishOp tok input c room).out ≠ (finishOp tok input ctx room).out) :
    ¬ Harmless m input := by
  intro hharmless
  have hrun : exec (tooSmallStep tok input) (some ⟨some ctx⟩) [noRoom] = some (some ⟨some c⟩) := by
    rw [exec_cons, tooSmallStep_of_small hinit hsmall hctx]
    rfl
  have hsame := (hharmless _ _ _ _ _ _ _ _ hstarted hrun).2 room
  rw [finishCall_some hinit, finishCall_some hinit, endOfSign_rc, endOfSign_rc, endOfSign_out,
    endOfSign_out] at hsame
  obtain ⟨hok, hout⟩ := hsame hfirst
  exact hagain hok hout

/-- A token whose hash only tells whether there was data. -/
def hashToken : Token Unit (List UInt8) :=
  plainToken (xorStep _) (xorStep _) fun d data =>
    List.replicate (getShaSize d) (if data = [] then 0 else 1)

/-- A part is appended to the data of a digest. -/
theorem digestMgrDigestUpdate_hashToken (d : DigestMechanism) (parts : Bool) (s p : List UInt8) :
    digestMgrDigestUpdate hashToken (some ⟨d, parts, parts, s⟩) p
      = (.ok, some ⟨d, true, true, s ++ p⟩) := by
  have hupdate : ∀ ctx, shaHashUpdate hashToken ctx p = .ok (ctx.context ++ p) := by
    intro ctx
    cases p with
    | nil => simp [shaHashUpdate]
    | cons b p => rfl
  cases parts <;> simp [digestMgrDigestUpdate, hupdate]

/-- A context of `hashToken`, before or after the first part. -/
def hashCtx (m : Mechanism) (param : CheckedParam m) (ulParameterLen : Nat) (parts : Bool)
    (context : ContextOf (List UInt8) m) : SignCtx (List UInt8) m :=
  ⟨1, param, ulParameterLen, context, parts, parts, false, false⟩

/-- A part is added to the digest. -/
theorem signMgrSignUpdate_hashCtx {m : Mechanism} {param : CheckedParam m} {ulParameterLen : Nat}
    {parts : Bool} {context context' : ContextOf (List UInt8) m} {p : List UInt8}
    (h : signUpdateSwitch hashToken m (hashCtx m param ulParameterLen true context) p
      = (.ok, context')) :
    signMgrSignUpdate hashToken (hashCtx m param ulParameterLen parts context) p
      = (.ok, hashCtx m param ulParameterLen true context') := by
  unfold hashCtx at h
  cases parts <;> simp [signMgrSignUpdate, hashCtx, h]

/-- The encoded hash is not too long for the key. -/
theorem signEncodedHash_hashToken (d : DigestMechanism) (b : UInt8) :
    (signEncodedHash hashToken d 1 (replicate (getShaSize d) b) noRoom.out).1 = .bufferTooSmall ∧
      (signEncodedHash hashToken d 1 (replicate (getShaSize d) b) room.out).1 = .ok := by
  cases d <;> exact ⟨rfl, rfl⟩

section
variable {d : DigestMechanism} {ps : List (List UInt8)}

/-- The context of PKCS #1. -/
def pkcsCtx (d : DigestMechanism) (parts : Bool) (context : MpDigestContext (List UInt8)) :
    SignCtx (List UInt8) (.hashRsaPkcs d) :=
  hashCtx (.hashRsaPkcs d) () 0 parts context

/-- An operation with PKCS #1 has been started. -/
theorem started_pkcs (hne : ps ≠ []) :
    Started hashToken (m := .hashRsaPkcs d) ⟨none, 0⟩ 1 (.parts ps)
      (some ⟨some (pkcsCtx d true ⟨some ⟨d, true, true, ps.flatten⟩, true⟩)⟩) := by
  refine started_of_updates (pkcsCtx d false ⟨none, false⟩)
    (fun s => pkcsCtx d true ⟨some ⟨d, true, true, s⟩, true⟩) rfl rfl ?_ ?_ hne
  · intro p
    refine signMgrSignUpdate_hashCtx ?_
    have hdigest : digestMgrInit hashToken none d = (.ok, some ⟨d, false, false, []⟩) := rfl
    show rsaHashPkcsSignUpdate hashToken d ⟨none, false⟩ p = _
    simp [rsaHashPkcsSignUpdate, hdigest, digestMgrDigestUpdate_hashToken]
    rfl
  · intro s p
    refine signMgrSignUpdate_hashCtx ?_
    show rsaHashPkcsSignUpdate hashToken d ⟨some ⟨d, true, true, s⟩, true⟩ p = _
    simp [rsaHashPkcsSignUpdate, digestMgrDigestUpdate_hashToken]
    rfl

/-- `C_SignFinal` with PKCS #1 ends the digest and signs its hash. -/
theorem finishOp_pkcsCtx (s : List UInt8) (a : Attempt) :
    finishOp hashToken (.parts ps) (pkcsCtx d true ⟨some ⟨d, true, true, s⟩, true⟩) a
      = .ofOut (pkcsCtx d true ⟨none, true⟩) (signEncodedHash hashToken d 1
          (replicate (getShaSize d) (if s = [] then 0 else 1)) a.out) :=
  congrArg (SignResult.ofContext (pkcsCtx d true ⟨some ⟨d, true, true, s⟩, true⟩))
    (rsaHashPkcsSignFinal_active hashToken d 1 s a.buf a.len)

/-- PKCS #1 in parts is not harmless: after an attempt there is no digest. -/
theorem not_harmless_pkcs (hne : ps ≠ []) : ¬ Harmless (.hashRsaPkcs d) (.parts ps) := by
  refine not_harmless_of_attempt (c := pkcsCtx d true ⟨none, true⟩) rfl (started_pkcs hne)
    ?_ ?_ ?_ ?_
  · rw [finishOp_pkcsCtx]
    exact (signEncodedHash_hashToken d _).1
  · rw [finishOp_pkcsCtx]
    rfl
  · rw [finishOp_pkcsCtx]
    exact (signEncodedHash_hashToken d _).2
  · exact nofun

variable {hd : d ≠ .md5}

/-- The context of PSS. -/
def pssCtx (d : DigestMechanism) (hd : d ≠ .md5) (parts : Bool)
    (context : Option (DigestContext (List UInt8))) :
    SignCtx (List UInt8) (.hashRsaPkcsPss d hd) :=
  hashCtx (.hashRsaPkcsPss d hd) ⟨d, d, 0⟩ 24 parts context

/-- An operation with PSS has been started. -/
theorem started_pss (hne : ps ≠ []) :
    Started hashToken (m := .hashRsaPkcsPss d hd) ⟨some ⟨d, d, 0⟩, 24⟩ 1 (.parts ps)
      (some ⟨some (pssCtx d hd true (some ⟨d, true, true, ps.flatten⟩))⟩) := by
  refine started_of_updates (pssCtx d hd false none)
    (fun s => pssCtx d hd true (some ⟨d, true, true, s⟩)) rfl ?_ ?_ ?_ hne
  · cases d
    case md5 => exact absurd rfl hd
    all_goals rfl
  · intro p
    refine signMgrSignUpdate_hashCtx ?_
    have hdigest : digestMgrInit hashToken none d = (.ok, some ⟨d, false, false, []⟩) := rfl
    show rsaHashPssUpdate hashToken d none p = _
    simp [rsaHashPssUpdate, hdigest, digestMgrDigestUpdate_hashToken]
    rfl
  · intro s p
    refine signMgrSignUpdate_hashCtx ?_
    exact digestMgrDigestUpdate_hashToken d true s p

/-- `C_SignFinal` with PSS ends the digest and signs its hash. -/
theorem finishOp_pssCtx (s : List UInt8) (a : Attempt) :
    finishOp hashToken (.parts ps) (pssCtx d hd true (some ⟨d, true, true, s⟩)) a
      = .ofOut (pssCtx d hd true none) (signWithRsaPkcsPss hashToken 1 ⟨d, d, 0⟩ 24
          (replicate (getShaSize d) (if s = [] then 0 else 1)) a.salt a.out) :=
  congrArg (SignResult.ofContext (pssCtx d hd true (some ⟨d, true, true, s⟩)))
    (rsaHashPssSignFinal_active hashToken d 1 ⟨d, d, 0⟩ 24 s a.salt a.buf a.len)

/-- The token signs with the hash itself. -/
theorem signWithRsaPkcsPss_hashToken (d : DigestMechanism) (hd : d ≠ .md5) (b : UInt8) :
    (signWithRsaPkcsPss hashToken 1 ⟨d, d, 0⟩ 24 (replicate (getShaSize d) b) [] noRoom.out).1
        = .bufferTooSmall ∧
      signWithRsaPkcsPss hashToken 1 ⟨d, d, 0⟩ 24 (replicate (getShaSize d) b) [] room.out
        = (.ok, ⟨some (room.buf.write 0 (replicate (getShaSize d) b)), getShaSize d⟩) := by
  cases d
  case md5 => exact absurd rfl hd
  all_goals exact ⟨rfl, rfl⟩

/-- PSS in parts is not harmless if there is data: after an attempt, the hash of the empty
message is signed. -/
theorem not_harmless_pss (hdata : ps.flatten ≠ []) :
    ¬ Harmless (.hashRsaPkcsPss d hd) (.parts ps) := by
  have hne : ps ≠ [] := fun h => hdata (h ▸ rfl)
  refine not_harmless_of_attempt (c := pssCtx d hd true none) rfl (started_pss hne) ?_ ?_ ?_ ?_
  · rw [finishOp_pssCtx]
    exact (signWithRsaPkcsPss_hashToken d hd _).1
  · rw [finishOp_pssCtx]
    rfl
  · rw [finishOp_pssCtx]
    exact congrArg Prod.fst (signWithRsaPkcsPss_hashToken d hd _).2
  · intro _ hout
    -- A digest that is over is started again, without data.
    have hfinish : finishOp hashToken (.parts ps) (pssCtx d hd true none) room
        = finishOp hashToken (.parts ps) (pssCtx d hd true (some ⟨d, true, true, []⟩)) room :=
      congrArg (SignResult.ofContext (pssCtx d hd true none))
        (EmptyDigest.rsaHashPssSignFinal_eq (.inr ⟨[], rfl, rfl⟩) room.salt room.out).symm
    rw [hfinish, finishOp_pssCtx, finishOp_pssCtx, if_pos rfl, if_neg hdata] at hout
    have hroom := fun b => congrArg Prod.snd (signWithRsaPkcsPss_hashToken d hd b).2
    have hwrite := (hroom 0).symm.trans (hout.trans (hroom 1))
    have hbyte := congrFun (Option.some.inj (congrArg Out.pSignature hwrite)) 0
    cases d
    case md5 => exact hd rfl
    all_goals exact absurd hbyte (by decide)

end

/-! ### When calls with a buffer that is too small are harmless -/

/-- Calls with a buffer that is too small are harmless for a MAC in parts, for a MAC in one call
if the message is a number of full blocks or zeros whose number divides the block size, for RSA
in one call, for RSA with PSS and a digest in parts if the message is empty, and for PKCS #1
with a digest in parts if there is no part. In all other cases they are not. -/
theorem harmless_iff (m : Mechanism) (input : Input) (hfits : input.Fits) :
    Harmless m input ↔ HarmlessWhen m input := by
  cases input with
  | single data =>
    cases m with
    | mac m =>
      have hpos : 0 < m.blockSize := Nat.pos_of_neZero _
      constructor
      -- Repetitions of a message fill a block only if its length divides that of the block.
      · intro hharmless
        by_contra hwhen
        obtain ⟨hmod, hzeros⟩ := not_or.mp hwhen
        by_cases hn : data.length ∣ m.blockSize
        · have hle := Nat.le_of_dvd hpos hn
          have hne : data.length ≠ m.blockSize := fun h => hmod (h ▸ dvd_refl _)
          exact not_harmless_of_dvd hn (by omega) (fun h => hzeros ⟨hn, h⟩) hharmless
        · exact not_harmless_of_not_dvd hfits hmod hn hharmless
      · rintro (hdvd | ⟨hn, hzeros⟩)
        · exact harmless_mac_of_dvd hdvd
        · rw [hzeros]
          rcases lt_or_eq_of_le (Nat.le_of_dvd hpos hn) with hlt | heq
          · exact harmless_mac_zeros hn hlt
          · exact harmless_mac_of_dvd ⟨1, by rw [List.length_replicate, heq, mul_one]⟩
    | rsaPkcs => exact iff_of_true (harmless_rsa_single (m := .rsaPkcs) nofun data) trivial
    | rsaPkcsPss => exact iff_of_true (harmless_rsa_single (m := .rsaPkcsPss) nofun data) trivial
    | hashRsaPkcs d =>
      exact iff_of_true (harmless_rsa_single (m := .hashRsaPkcs d) nofun data) trivial
    | hashRsaPkcsPss d hd =>
      exact iff_of_true (harmless_rsa_single (m := .hashRsaPkcsPss d hd) nofun data) trivial
  | parts ps =>
    cases m with
    | mac m => exact iff_of_true (harmless_mac_parts m ps) trivial
    | rsaPkcs => exact iff_of_true (harmless_rsa_parts (.inl rfl) ps) trivial
    | rsaPkcsPss => exact iff_of_true (harmless_rsa_parts (.inr rfl) ps) trivial
    | hashRsaPkcs d =>
      constructor
      · intro hharmless
        by_contra hne
        exact not_harmless_pkcs hne hharmless
      · rintro rfl
        exact harmless_no_parts _
    | hashRsaPkcsPss d hd =>
      constructor
      · intro hharmless
        by_contra hdata
        exact not_harmless_pss hdata hharmless
      · exact harmless_pss_empty

/-- Parts are harmless where the message as a whole is not. -/
theorem harmless_parts_not_single :
    Harmless (.mac .aesMac) (.parts [[1], [2, 3]]) ∧
      ¬ Harmless (.mac .aesMac) (.single [1, 2, 3]) := by
  constructor
  · exact (harmless_iff _ _ (by simp [Input.Fits])).mpr trivial
  · intro hharmless
    exact absurd ((harmless_iff _ _ (by simp [Input.Fits])).mp hharmless)
      (by simp [HarmlessWhen, MacMechanism.blockSize, AES_BLOCK_SIZE])

/-- The return value of a call and the first bytes of the buffer. -/
def returned {D : Type} {m : Mechanism} (r : CallResult D m) (n : Nat) :
    CkRv × Option (List UInt8) :=
  (r.rc, r.out.pSignature.map fun buf => buf.read 0 n)

/-- `C_Sign` of three bytes with `CKM_AES_MAC`: after an attempt without room, the MAC is that of
the bytes twice. `C_SignFinal` after one byte with `CKM_SHA256_RSA_PKCS_PSS`: after an attempt
without room, the signature is that of the empty message. With `CKM_SHA256_RSA_PKCS` there is
none. -/
theorem retry_returns_other_signature :
    let mac := some ⟨some (freshSignCtx .aesMac)⟩
    let pss := some ⟨some (pssCtx .sha256 nofun true (some ⟨.sha256, true, true, [7]⟩))⟩
    let pkcs := some ⟨some (pkcsCtx .sha256 true ⟨some ⟨.sha256, true, true, [7]⟩, true⟩)⟩
    (Started xorToken ⟨none, 0⟩ 1 (.single [1, 2, 3]) mac ∧
      returned (finishCall xorToken (.single [1, 2, 3]) mac room) 8
        = (.ok, some [1, 2, 3, 0, 0, 0, 0, 0]) ∧
      (tooSmallStep xorToken (.single [1, 2, 3]) mac noRoom).map
          (fun s => returned (finishCall xorToken (.single [1, 2, 3]) s room) 8)
        = some (.ok, some [1, 2, 3, 1, 2, 3, 0, 0])) ∧
    (Started (m := .hashRsaPkcsPss .sha256 nofun) hashToken ⟨some ⟨.sha256, .sha256, 0⟩, 24⟩ 1
        (.parts [[7]]) pss ∧
      returned (finishCall hashToken (.parts [[7]]) pss room) 2 = (.ok, some [1, 1]) ∧
      (tooSmallStep hashToken (.parts [[7]]) pss noRoom).map
          (fun s => returned (finishCall hashToken (.parts [[7]]) s room) 2)
        = some (.ok, some [0, 0])) ∧
    (Started hashToken ⟨none, 0⟩ 1 (.parts [[7]]) pkcs ∧
      returned (finishCall hashToken (.parts [[7]]) pkcs room) 1 = (.ok, some [48]) ∧
      (tooSmallStep hashToken (.parts [[7]]) pkcs noRoom).map
          (fun s => returned (finishCall hashToken (.parts [[7]]) s room) 1)
        = some (.operationNotInitialized, some [0])) :=
  ⟨⟨⟨_, rfl, rfl⟩, by decide, by decide⟩, ⟨⟨_, rfl, rfl⟩, by decide, by decide⟩,
    ⟨⟨_, rfl, rfl⟩, by decide, by decide⟩⟩

end OpenCryptoki.Proofs.Common
