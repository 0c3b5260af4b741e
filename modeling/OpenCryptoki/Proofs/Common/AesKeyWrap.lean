import OpenCryptoki.Lib.BlockPass
import OpenCryptoki.Common.AesKeyWrap

/-!
# `OpenCryptoki.Proofs.Common.AesKeyWrap`: key wrap is exactly invertible

`kwWrap` and `kwUnwrap` are key wrap on lists: six passes over the blocks of 8 bytes, with the
chaining value and the counter as the state. They undo each other by `Lib/BlockPass.lean`,
since one step undoes the other one (`kwBack_undoes_kwStep`, `kwStep_undoes_kwBack`).

The functions of the source work in memory. `aeskwWrap_eq` and `aeskwUnwrapRaw_eq` say that
they write `kwWrap` and `kwUnwrap` of the bytes that they find at `in_data`. Nothing is asked
of the addresses, so the input and the output may overlap.

The variant with padding is in `OpenCryptoki.Proofs.Common.AesKeyWrapPad`, where
`aes_key_wrap_exact` puts the two variants together.
-/

set_option autoImplicit false

namespace OpenCryptoki.Proofs.Common

open Lib OpenCryptoki.Common

/-- `t_aes_ecb` with a permutation of the blocks. -/
def ecbOf (p : BlockPerm UInt8 AES_BLOCK_SIZE) : AesEcb :=
  fun encrypt b => .ok (if encrypt then p.enc b else p.dec b)

/-! ### Key wrap on lists -/

/-- One step of key wrap: the chaining value and the last value of the counter are the
state. -/
def kwStep (p : BlockPerm UInt8 AES_BLOCK_SIZE) (s : List UInt8 × UInt64) (r : List UInt8) :
    List UInt8 × List UInt8 × UInt64 :=
  let c := p.enc (s.1 ++ r)
  (c.drop AES_KEY_WRAP_BLOCK_SIZE, xorCounter (c.take AES_KEY_WRAP_BLOCK_SIZE) (s.2 + 1), s.2 + 1)

/-- One step back. -/
def kwBack (p : BlockPerm UInt8 AES_BLOCK_SIZE) (s : List UInt8 × UInt64) (r : List UInt8) :
    List UInt8 × List UInt8 × UInt64 :=
  let c := p.dec (xorCounter s.1 s.2 ++ r)
  (c.drop AES_KEY_WRAP_BLOCK_SIZE, c.take AES_KEY_WRAP_BLOCK_SIZE, s.2 - 1)

/-- `data` wrapped with the initial value `iv`. -/
def kwWrap (p : BlockPerm UInt8 AES_BLOCK_SIZE) (iv data : List UInt8) : List UInt8 :=
  let r := (pass AES_KEY_WRAP_BLOCK_SIZE (kwStep p))^[6] (data, iv, 0)
  r.2.1 ++ r.1

/-- The initial value and the data of a ciphertext. -/
def kwUnwrap (p : BlockPerm UInt8 AES_BLOCK_SIZE) (c : List UInt8) : List UInt8 × List UInt8 :=
  let xs := c.drop AES_KEY_WRAP_BLOCK_SIZE
  let r := (passBack AES_KEY_WRAP_BLOCK_SIZE (kwBack p))^[6]
    (xs, c.take AES_KEY_WRAP_BLOCK_SIZE, 6 * .ofNat (xs.length / AES_KEY_WRAP_BLOCK_SIZE))
  (r.2.1, r.1)

/-- The blocks of key wrap are not empty. -/
theorem kw_block_size_pos : 0 < AES_KEY_WRAP_BLOCK_SIZE := by decide

section
variable (a : List UInt8)

/-- The counter does not change the length. -/
@[simp] theorem length_xorCounter (t : UInt64) : (xorCounter a t).length = a.length := by
  rw [xorCounter]
  split <;> simp

/-- The exclusive or with one byte undoes itself. -/
theorem modify_xor_modify_xor (i : Nat) (x : UInt8) :
    (a.modify i (· ^^^ x)).modify i (· ^^^ x) = a := by
  apply List.ext_getElem
  · simp
  · intro j h₁ h₂
    rw [List.getElem_modify, List.getElem_modify]
    split
    · rw [UInt8.xor_assoc, UInt8.xor_self, UInt8.xor_zero]
    · rfl

/-- Changes at two places commute. -/
theorem modify_comm {i j : Nat} (h : i ≠ j) (f g : UInt8 → UInt8) :
    (a.modify i f).modify j g = (a.modify j g).modify i f := by
  apply List.ext_getElem
  · simp
  · intro k h₁ h₂
    simp only [List.getElem_modify]
    split <;> split
    · omega
    · rfl
    · rfl
    · rfl

/-- The counter is folded in by exclusive or. -/
@[simp] theorem xorCounter_xorCounter (t : UInt64) : xorCounter (xorCounter a t) t = a := by
  unfold xorCounter
  split
  · -- Each byte is changed twice, and the changes of different bytes do not matter.
    simp only [modify_comm _ (show 4 ≠ 7 by decide), modify_comm _ (show 5 ≠ 7 by decide),
      modify_comm _ (show 6 ≠ 7 by decide), modify_comm _ (show 4 ≠ 6 by decide),
      modify_comm _ (show 5 ≠ 6 by decide), modify_comm _ (show 4 ≠ 5 by decide),
      modify_xor_modify_xor]
  · exact modify_xor_modify_xor a 7 _

end

section
variable (p : BlockPerm UInt8 AES_BLOCK_SIZE)

variable {a c xs : List UInt8} {inDataLen outDataLen : Nat}

/-- The chaining value and a block make up a cipher block. -/
theorem length_state_append {r : List UInt8} (ha : a.length = AES_KEY_WRAP_BLOCK_SIZE)
    (hr : r.length = AES_KEY_WRAP_BLOCK_SIZE) : (a ++ r).length = AES_BLOCK_SIZE := by
  rw [List.length_append, ha, hr]
  rfl

/-- The first half of a cipher block. -/
theorem length_take_block (hc : c.length = AES_BLOCK_SIZE) :
    (c.take AES_KEY_WRAP_BLOCK_SIZE).length = AES_KEY_WRAP_BLOCK_SIZE := by
  rw [List.length_take, hc]
  rfl

/-- The second half of a cipher block. -/
theorem length_drop_block (hc : c.length = AES_BLOCK_SIZE) :
    (c.drop AES_KEY_WRAP_BLOCK_SIZE).length = AES_KEY_WRAP_BLOCK_SIZE := by
  rw [List.length_drop, hc]
  rfl

/-- Unwrapping one block undoes wrapping it. -/
theorem kwBack_undoes_kwStep :
    StepUndoes AES_KEY_WRAP_BLOCK_SIZE (fun s => s.1.length = AES_KEY_WRAP_BLOCK_SIZE) (kwBack p)
      (kwStep p) where
  inv s r hs hr := by
    simp [kwStep, length_take_block (p.length_enc _ (length_state_append hs hr))]
  length_eq s r hs hr := length_drop_block (p.length_enc _ (length_state_append hs hr))
  back_step s r hs hr := by
    have hdec := p.dec_enc _ (length_state_append hs hr)
    simp [kwStep, kwBack, List.take_append_drop, hdec, ← hs]

/-- Wrapping one block undoes unwrapping it. -/
theorem kwStep_undoes_kwBack :
    StepUndoes AES_KEY_WRAP_BLOCK_SIZE (fun s => s.1.length = AES_KEY_WRAP_BLOCK_SIZE) (kwStep p)
      (kwBack p) where
  inv s r hs hr := length_take_block (p.length_dec _ (length_state_append (by simpa using hs) hr))
  length_eq s r hs hr :=
    length_drop_block (p.length_dec _ (length_state_append (by simpa using hs) hr))
  back_step s r hs hr := by
    have hx : (xorCounter s.1 s.2).length = AES_KEY_WRAP_BLOCK_SIZE := by simpa using hs
    have henc := p.enc_dec _ (length_state_append hx hr)
    simp [kwStep, kwBack, List.take_append_drop, henc, ← hx]

variable (s : List UInt8 × UInt64)

/-- The counter goes up by one for each block. -/
theorem counter_pass (hxs : AES_KEY_WRAP_BLOCK_SIZE ∣ xs.length) :
    (mapBlocks AES_KEY_WRAP_BLOCK_SIZE (kwStep p) s xs).2.2
      = s.2 + .ofNat (xs.length / AES_KEY_WRAP_BLOCK_SIZE) := by
  induction xs, hxs using blocks_induction generalizing s with
  | nil => simp
  | block b xs hb hxs ih =>
    rw [mapBlocks_cons kw_block_size_pos hb hxs, ih, List.length_append, hb,
      Nat.add_div_left _ kw_block_size_pos, UInt64.ofNat_add]
    show s.2 + 1 + _ = s.2 + (_ + 1)
    rw [UInt64.add_assoc, UInt64.add_comm 1]

/-- On the way back the counter goes down by one for each block. -/
theorem counter_passBack (hs : s.1.length = AES_KEY_WRAP_BLOCK_SIZE)
    (hxs : AES_KEY_WRAP_BLOCK_SIZE ∣ xs.length) :
    (mapBlocksBack AES_KEY_WRAP_BLOCK_SIZE (kwBack p) s xs).2.2
      = s.2 - .ofNat (xs.length / AES_KEY_WRAP_BLOCK_SIZE) := by
  obtain ⟨-, hlen⟩ := (kwStep_undoes_kwBack p).mapBlocksBack_keeps kw_block_size_pos hs hxs
  have hup := counter_pass p (mapBlocksBack AES_KEY_WRAP_BLOCK_SIZE (kwBack p) s xs).2
    (hlen ▸ hxs : _ ∣ (mapBlocksBack AES_KEY_WRAP_BLOCK_SIZE (kwBack p) s xs).1.length)
  rw [(kwStep_undoes_kwBack p).mapBlocks_mapBlocksBack kw_block_size_pos hs hxs, hlen] at hup
  rw [hup, UInt64.add_sub_cancel]

section
variable (k : Nat) (r : List UInt8 × List UInt8 × UInt64)
  (hs : r.2.1.length = AES_KEY_WRAP_BLOCK_SIZE) (hxs : AES_KEY_WRAP_BLOCK_SIZE ∣ r.1.length)
include hs hxs

/-- The counter after `k` passes. -/
theorem counter_iterate_pass :
    ((pass AES_KEY_WRAP_BLOCK_SIZE (kwStep p))^[k] r).2.2
      = r.2.2 + .ofNat k * .ofNat (r.1.length / AES_KEY_WRAP_BLOCK_SIZE) := by
  induction k with
  | zero => simp
  | succ k ih =>
    obtain ⟨hinv, hlen⟩ := (kwBack_undoes_kwStep p).iterate_pass_keeps kw_block_size_pos k hs hxs
    rw [Function.iterate_succ_apply', Lib.pass, counter_pass p _ (hlen ▸ hxs), ih, hlen,
      UInt64.ofNat_add, UInt64.add_mul, ← UInt64.add_assoc]
    simp

/-- The counter after `k` passes back. -/
theorem counter_iterate_passBack :
    ((passBack AES_KEY_WRAP_BLOCK_SIZE (kwBack p))^[k] r).2.2
      = r.2.2 - .ofNat k * .ofNat (r.1.length / AES_KEY_WRAP_BLOCK_SIZE) := by
  obtain ⟨hinv, hlen⟩ :=
    (kwStep_undoes_kwBack p).iterate_passBack_keeps kw_block_size_pos k hs hxs
  have hup := counter_iterate_pass p k _ hinv (hlen ▸ hxs)
  rw [(kwStep_undoes_kwBack p).iterate_pass_passBack kw_block_size_pos k hs hxs, hlen] at hup
  rw [hup, UInt64.add_sub_cancel]

end

/-- Unwrapping gives back the initial value and the data. -/
theorem kwUnwrap_kwWrap {iv data : List UInt8} (hiv : iv.length = AES_KEY_WRAP_BLOCK_SIZE)
    (hdata : AES_KEY_WRAP_BLOCK_SIZE ∣ data.length) :
    kwUnwrap p (kwWrap p iv data) = (iv, data) := by
  let r := (pass AES_KEY_WRAP_BLOCK_SIZE (kwStep p))^[6] (data, iv, 0)
  obtain ⟨hinv, hlen⟩ :=
    (kwBack_undoes_kwStep p).iterate_pass_keeps kw_block_size_pos 6 hiv hdata (r := (data, iv, 0))
  have hcounter : r.2.2 = 6 * .ofNat (data.length / AES_KEY_WRAP_BLOCK_SIZE) := by
    rw [show r.2.2 = _ from counter_iterate_pass p 6 (data, iv, 0) hiv hdata]
    exact UInt64.zero_add _
  have hundo := (kwBack_undoes_kwStep p).iterate_passBack_pass kw_block_size_pos 6 hiv hdata
    (r := (data, iv, 0))
  have htake : (r.2.1 ++ r.1).take AES_KEY_WRAP_BLOCK_SIZE = r.2.1 := List.take_left' hinv
  have hdrop : (r.2.1 ++ r.1).drop AES_KEY_WRAP_BLOCK_SIZE = r.1 := List.drop_left' hinv
  show (fun q => (q.2.1, q.1)) ((passBack AES_KEY_WRAP_BLOCK_SIZE (kwBack p))^[6]
    ((r.2.1 ++ r.1).drop _, (r.2.1 ++ r.1).take _, 6 * .ofNat (((r.2.1 ++ r.1).drop _).length / _)))
    = _
  rw [htake, hdrop, show r.1.length = data.length from hlen, ← hcounter]
  show (fun q => (q.2.1, q.1)) ((passBack AES_KEY_WRAP_BLOCK_SIZE (kwBack p))^[6] r) = _
  rw [hundo]

section
variable (hlong : AES_KEY_WRAP_BLOCK_SIZE ≤ c.length) (hc : AES_KEY_WRAP_BLOCK_SIZE ∣ c.length)
include hlong hc

/-- Wrapped data is a chaining value and blocks. -/
theorem length_cut : (c.take AES_KEY_WRAP_BLOCK_SIZE).length = AES_KEY_WRAP_BLOCK_SIZE ∧
    AES_KEY_WRAP_BLOCK_SIZE ∣ (c.drop AES_KEY_WRAP_BLOCK_SIZE).length := by
  rw [List.length_drop]
  exact ⟨List.length_take_of_le hlong, Nat.dvd_sub hc dvd_rfl⟩

/-- A ciphertext is what wrapping makes of its initial value and its data. -/
theorem kwWrap_kwUnwrap : kwWrap p (kwUnwrap p c).1 (kwUnwrap p c).2 = c := by
  let xs := c.drop AES_KEY_WRAP_BLOCK_SIZE
  obtain ⟨ha, hxs⟩ := length_cut hlong hc
  let start : List UInt8 × List UInt8 × UInt64 :=
    (xs, c.take AES_KEY_WRAP_BLOCK_SIZE, 6 * .ofNat (xs.length / AES_KEY_WRAP_BLOCK_SIZE))
  have hcounter := counter_iterate_passBack p 6 start ha hxs
  have hzero : ((passBack AES_KEY_WRAP_BLOCK_SIZE (kwBack p))^[6] start).2.2 = 0 := by
    rw [hcounter]
    exact UInt64.sub_self _
  have hredo := (kwStep_undoes_kwBack p).iterate_pass_passBack kw_block_size_pos 6 ha hxs
    (r := start)
  have hstate : ((kwUnwrap p c).2, (kwUnwrap p c).1, (0 : UInt64))
      = (passBack AES_KEY_WRAP_BLOCK_SIZE (kwBack p))^[6] start := by
    rw [← hzero]
    rfl
  rw [kwWrap, hstate, hredo]
  exact List.take_append_drop _ _

/-- The lengths of what a ciphertext holds. -/
theorem length_kwUnwrap :
    (kwUnwrap p c).1.length = AES_KEY_WRAP_BLOCK_SIZE ∧
      (kwUnwrap p c).2.length = c.length - AES_KEY_WRAP_BLOCK_SIZE := by
  obtain ⟨ha, hxs⟩ := length_cut hlong hc
  obtain ⟨hinv, hlen⟩ :=
    (kwStep_undoes_kwBack p).iterate_passBack_keeps kw_block_size_pos 6 (r := (_, _, _)) ha hxs
  exact ⟨hinv, hlen.trans List.length_drop⟩

end

/-- Wrapping adds one block. -/
theorem length_kwWrap {iv data : List UInt8} (hiv : iv.length = AES_KEY_WRAP_BLOCK_SIZE)
    (hdata : AES_KEY_WRAP_BLOCK_SIZE ∣ data.length) :
    (kwWrap p iv data).length = data.length + AES_KEY_WRAP_BLOCK_SIZE := by
  obtain ⟨hinv, hlen⟩ :=
    (kwBack_undoes_kwStep p).iterate_pass_keeps kw_block_size_pos 6 (r := (data, iv, 0)) hiv hdata
  rw [kwWrap, List.length_append, hinv, hlen, add_comm]

/-! ### The loops in memory -/

/-- What the blocks at `r` become in a pass, and the state after it. -/
def passAt (mem : Buf) (r n : Nat) (s : List UInt8 × UInt64) :
    List UInt8 × List UInt8 × UInt64 :=
  pass AES_KEY_WRAP_BLOCK_SIZE (kwStep p) (mem.read r (AES_KEY_WRAP_BLOCK_SIZE * n), s)

/-- The inner loop of `aeskw_wrap` is a pass over the blocks from `R` on. -/
theorem wrapPass_eq (n : Nat) (t : UInt64) (r : Nat) (mem : Buf)
    (ha : a.length = AES_KEY_WRAP_BLOCK_SIZE) :
    wrapPass (ecbOf p) n (t + 1) r ⟨a, mem⟩
      = .ok ⟨(passAt p mem r n (a, t)).2.1, mem.write r (passAt p mem r n (a, t)).1⟩ := by
  induction n generalizing t r a mem with
  | zero => simp [wrapPass, passAt, Lib.pass]
  | succ n ih =>
    let b := mem.read r AES_KEY_WRAP_BLOCK_SIZE
    have hb : b.length = AES_KEY_WRAP_BLOCK_SIZE := mem.length_read _ _
    let y := (kwStep p (a, t) b).1
    have hy : y.length = AES_KEY_WRAP_BLOCK_SIZE :=
      (kwBack_undoes_kwStep p).length_eq (a, t) b ha hb
    have ha' := (kwBack_undoes_kwStep p).inv (a, t) b ha hb
    -- The first block is done, and the others are still as they were.
    have hstep : wrapStep (ecbOf p) (t + 1) r ⟨a, mem⟩
        = .ok ⟨(kwStep p (a, t) b).2.1, mem.write r y⟩ := rfl
    have hothers : (mem.write r y).read (r + AES_KEY_WRAP_BLOCK_SIZE) (AES_KEY_WRAP_BLOCK_SIZE * n)
        = mem.read (r + AES_KEY_WRAP_BLOCK_SIZE) (AES_KEY_WRAP_BLOCK_SIZE * n) :=
      Buf.read_write_after _ _ _ _ _ (le_of_eq (by rw [hy]))
    have hpass : passAt p mem r (n + 1) (a, t)
        = (y ++ (passAt p (mem.write r y) (r + AES_KEY_WRAP_BLOCK_SIZE) n
              (kwStep p (a, t) b).2).1,
            (passAt p (mem.write r y) (r + AES_KEY_WRAP_BLOCK_SIZE) n
              (kwStep p (a, t) b).2).2) := by
      rw [passAt, passAt, hothers, Nat.mul_succ, add_comm, Buf.read_add]
      exact mapBlocks_cons kw_block_size_pos hb ⟨n, Buf.length_read _ _ _⟩
    show (wrapStep (ecbOf p) (t + 1) r ⟨a, mem⟩ >>= _) = _
    rw [hstep, hpass, ← Buf.write_write_append, hy]
    exact ih (t + 1) (r + AES_KEY_WRAP_BLOCK_SIZE) (mem.write r y) ha'

/-- The loops of `aeskw_wrap` are passes over the blocks from `R` on. -/
theorem wrapRounds_eq (rounds n : Nat) (t : UInt64) (r : Nat) (mem : Buf)
    (ha : a.length = AES_KEY_WRAP_BLOCK_SIZE) (hxs : xs.length = AES_KEY_WRAP_BLOCK_SIZE * n) :
    wrapRounds (ecbOf p) n r rounds (t + 1) ⟨a, mem.write r xs⟩
      = .ok ⟨((pass AES_KEY_WRAP_BLOCK_SIZE (kwStep p))^[rounds] (xs, a, t)).2.1,
          mem.write r ((pass AES_KEY_WRAP_BLOCK_SIZE (kwStep p))^[rounds] (xs, a, t)).1⟩ := by
  induction rounds generalizing t a xs with
  | zero => rfl
  | succ rounds ih =>
    have hdvd : AES_KEY_WRAP_BLOCK_SIZE ∣ xs.length := ⟨n, hxs⟩
    have hat : passAt p (mem.write r xs) r n (a, t)
        = pass AES_KEY_WRAP_BLOCK_SIZE (kwStep p) (xs, a, t) := by
      rw [passAt, ← hxs, Buf.read_write]
    obtain ⟨hinv, hlen⟩ := (kwBack_undoes_kwStep p).iterate_pass_keeps kw_block_size_pos 1
      (r := (xs, a, t)) ha hdvd
    have hcounter : (pass AES_KEY_WRAP_BLOCK_SIZE (kwStep p) (xs, a, t)).2.2 = t + .ofNat n := by
      rw [Lib.pass, counter_pass p _ hdvd, hxs, Nat.mul_div_cancel_left _ kw_block_size_pos]
    rw [Function.iterate_one] at hinv hlen
    show (wrapPass (ecbOf p) n (t + 1) r ⟨a, mem.write r xs⟩ >>= _) = _
    rw [wrapPass_eq p n t r _ ha, hat, Buf.write_write_cover _ _ _ _ hlen.ge,
      Function.iterate_succ_apply]
    show wrapRounds (ecbOf p) n r rounds (t + 1 + .ofNat n) _ = _
    rw [show t + 1 + .ofNat n = t + .ofNat n + 1 by ac_rfl, ← hcounter]
    exact ih _ hinv (hlen.trans hxs)

/-- What the blocks from `base` on become in a pass back. -/
def passBackAt (mem : Buf) (base n : Nat) (s : List UInt8 × UInt64) :
    List UInt8 × List UInt8 × UInt64 :=
  passBack AES_KEY_WRAP_BLOCK_SIZE (kwBack p) (mem.read base (AES_KEY_WRAP_BLOCK_SIZE * n), s)

/-- The inner loop of `aeskw_unwrap_raw` is a pass back over the blocks. `R` starts at the last
one. -/
theorem unwrapPass_eq (n : Nat) (t : UInt64) (base : Nat) (mem : Buf)
    (ha : a.length = AES_KEY_WRAP_BLOCK_SIZE) :
    unwrapPass (ecbOf p) n t
        (base + AES_KEY_WRAP_BLOCK_SIZE * n - AES_KEY_WRAP_BLOCK_SIZE) ⟨a, mem⟩
      = .ok ⟨(passBackAt p mem base n (a, t)).2.1,
          mem.write base (passBackAt p mem base n (a, t)).1⟩ := by
  induction n generalizing t a mem with
  | zero => simp [unwrapPass, passBackAt, passBack]
  | succ n ih =>
    let r := base + AES_KEY_WRAP_BLOCK_SIZE * n
    let b := mem.read r AES_KEY_WRAP_BLOCK_SIZE
    have hb : b.length = AES_KEY_WRAP_BLOCK_SIZE := mem.length_read _ _
    let y := (kwBack p (a, t) b).1
    have ha' := (kwStep_undoes_kwBack p).inv (a, t) b ha hb
    -- The last block is done, and the blocks in front of it are still as they were.
    have hstep : unwrapStep (ecbOf p) t r ⟨a, mem⟩
        = .ok ⟨(kwBack p (a, t) b).2.1, mem.write r y⟩ := rfl
    have hothers : (mem.write r y).read base (AES_KEY_WRAP_BLOCK_SIZE * n)
        = mem.read base (AES_KEY_WRAP_BLOCK_SIZE * n) :=
      Buf.read_write_before _ _ _ _ _ le_rfl
    have hpass : passBackAt p mem base (n + 1) (a, t)
        = ((passBackAt p (mem.write r y) base n (kwBack p (a, t) b).2).1 ++ y,
            (passBackAt p (mem.write r y) base n (kwBack p (a, t) b).2).2) := by
      rw [passBackAt, passBackAt, hothers, Nat.mul_succ, Buf.read_add]
      exact mapBlocksBack_concat kw_block_size_pos ⟨n, Buf.length_read _ _ _⟩ hb
    have hlen : (passBackAt p (mem.write r y) base n (kwBack p (a, t) b).2).1.length
        = AES_KEY_WRAP_BLOCK_SIZE * n := by
      obtain ⟨-, hlen⟩ := (kwStep_undoes_kwBack p).mapBlocksBack_keeps kw_block_size_pos ha'
        (⟨n, Buf.length_read _ _ _⟩ :
          _ ∣ ((mem.write r y).read base (AES_KEY_WRAP_BLOCK_SIZE * n)).length)
      rw [passBackAt, passBack, hlen, Buf.length_read]
    have hr : base + AES_KEY_WRAP_BLOCK_SIZE * (n + 1) - AES_KEY_WRAP_BLOCK_SIZE = r := by
      rw [Nat.mul_succ, ← add_assoc, Nat.add_sub_cancel]
    rw [hr, hpass, ← Buf.write_write_before, hlen]
    show (unwrapStep (ecbOf p) t r ⟨a, mem⟩ >>= _) = _
    rw [hstep]
    exact ih (t - 1) (mem.write r y) ha'

/-- The loops of `aeskw_unwrap_raw` are passes back over the blocks. -/
theorem unwrapRounds_eq (rounds n : Nat) (t : UInt64) (base : Nat) (mem : Buf)
    (ha : a.length = AES_KEY_WRAP_BLOCK_SIZE) (hxs : xs.length = AES_KEY_WRAP_BLOCK_SIZE * n) :
    unwrapRounds (ecbOf p) n (base + AES_KEY_WRAP_BLOCK_SIZE * n - AES_KEY_WRAP_BLOCK_SIZE)
        rounds t ⟨a, mem.write base xs⟩
      = .ok ⟨((passBack AES_KEY_WRAP_BLOCK_SIZE (kwBack p))^[rounds] (xs, a, t)).2.1,
          mem.write base ((passBack AES_KEY_WRAP_BLOCK_SIZE (kwBack p))^[rounds]
            (xs, a, t)).1⟩ := by
  induction rounds generalizing t a xs with
  | zero => rfl
  | succ rounds ih =>
    have hdvd : AES_KEY_WRAP_BLOCK_SIZE ∣ xs.length := ⟨n, hxs⟩
    have hat : passBackAt p (mem.write base xs) base n (a, t)
        = passBack AES_KEY_WRAP_BLOCK_SIZE (kwBack p) (xs, a, t) := by
      rw [passBackAt, ← hxs, Buf.read_write]
    obtain ⟨hinv, hlen⟩ := (kwStep_undoes_kwBack p).iterate_passBack_keeps kw_block_size_pos 1
      (r := (xs, a, t)) ha hdvd
    have hcounter : (passBack AES_KEY_WRAP_BLOCK_SIZE (kwBack p) (xs, a, t)).2.2 =
      t - .ofNat n := by
      rw [passBack, counter_passBack p _ ha hdvd, hxs, Nat.mul_div_cancel_left _ kw_block_size_pos]
    rw [Function.iterate_one] at hinv hlen
    show (unwrapPass (ecbOf p) n t _ ⟨a, mem.write base xs⟩ >>= _) = _
    rw [unwrapPass_eq p n t base _ ha, hat, Buf.write_write_cover _ _ _ _ hlen.ge,
      Function.iterate_succ_apply]
    show unwrapRounds (ecbOf p) n _ rounds (t - .ofNat n) _ = _
    rw [← hcounter]
    exact ih _ hinv (hlen.trans hxs)

/-! ### The functions in memory -/

section
variable (mem : Buf) (inData outData : Nat)

section
variable (iv : Option (Vector UInt8 AES_KEY_WRAP_IV_SIZE))
  (hdvd : AES_KEY_WRAP_BLOCK_SIZE ∣ inDataLen)
include hdvd

/-- `aeskw_wrap` writes what key wrap makes of the bytes at `in_data`. -/
theorem aeskwWrap_eq (hlong : 2 * AES_KEY_WRAP_BLOCK_SIZE ≤ inDataLen)
    (hshort : inDataLen ≤ UINT32_MAX) (hroom : inDataLen + AES_KEY_WRAP_BLOCK_SIZE ≤ outDataLen) :
    aeskwWrap (ecbOf p) mem inData inDataLen outData outDataLen iv = ⟨.ok, mem.write outData
            (kwWrap p (iv.getD aeskwDefaultIv).toList (mem.read inData inDataLen)),
          inDataLen + AES_KEY_WRAP_BLOCK_SIZE⟩ := by
  have hiv : (iv.getD aeskwDefaultIv).toList.length = AES_KEY_WRAP_BLOCK_SIZE :=
    Vector.length_toList
  have hdata : (mem.read inData inDataLen).length
      = AES_KEY_WRAP_BLOCK_SIZE * (inDataLen / AES_KEY_WRAP_BLOCK_SIZE) := by
    rw [Buf.length_read, Nat.mul_div_cancel' hdvd]
  have hrounds := wrapRounds_eq p 6 _ 0 (outData + AES_KEY_WRAP_BLOCK_SIZE) mem hiv hdata
  obtain ⟨hinv, -⟩ := (kwBack_undoes_kwStep p).iterate_pass_keeps kw_block_size_pos 6
    (r := (mem.read inData inDataLen, (iv.getD aeskwDefaultIv).toList, 0)) hiv ⟨_, hdata⟩
  rw [aeskwWrap, if_neg (by have := Nat.mod_eq_zero_of_dvd hdvd; omega), if_neg (by omega)]
  simp only [UInt64.zero_add] at hrounds
  simp only [hrounds]
  rw [kwWrap, ← Buf.write_write_before, hinv]

omit hdvd in
/-- `aeskw_unwrap_raw` writes the data of the ciphertext at `in_data`. -/
theorem aeskwUnwrapRaw_eq (hdvd : AES_KEY_WRAP_BLOCK_SIZE ∣ inDataLen)
    (hlong : 3 * AES_KEY_WRAP_BLOCK_SIZE ≤ inDataLen) (hshort : inDataLen ≤ UINT32_MAX)
    (hroom : inDataLen - AES_KEY_WRAP_BLOCK_SIZE ≤ outDataLen) :
    aeskwUnwrapRaw (ecbOf p) mem inData inDataLen outData outDataLen
      = .ok { mem := mem.write outData (kwUnwrap p (mem.read inData inDataLen)).2
              outDataLen := inDataLen - AES_KEY_WRAP_BLOCK_SIZE
              iv := (kwUnwrap p (mem.read inData inDataLen)).1 } := by
  have hle : AES_KEY_WRAP_BLOCK_SIZE ≤ inDataLen := by
    simp only [AES_KEY_WRAP_BLOCK_SIZE] at hlong ⊢
    omega
  have hcut : mem.read inData inDataLen = mem.read inData AES_KEY_WRAP_BLOCK_SIZE
        ++ mem.read (inData + AES_KEY_WRAP_BLOCK_SIZE) (inDataLen - AES_KEY_WRAP_BLOCK_SIZE) := by
    rw [← Buf.read_add, Nat.add_sub_cancel' hle]
  have hblocks := Nat.mul_div_cancel' (Nat.dvd_sub hdvd (dvd_refl AES_KEY_WRAP_BLOCK_SIZE))
  have hrounds := unwrapRounds_eq p 6
    ((inDataLen - AES_KEY_WRAP_BLOCK_SIZE) / AES_KEY_WRAP_BLOCK_SIZE)
    (6 * .ofNat ((inDataLen - AES_KEY_WRAP_BLOCK_SIZE) / AES_KEY_WRAP_BLOCK_SIZE)) outData mem
    (Buf.length_read mem inData AES_KEY_WRAP_BLOCK_SIZE)
    ((Buf.length_read mem (inData + AES_KEY_WRAP_BLOCK_SIZE) _).trans hblocks.symm)
  rw [hblocks] at hrounds
  rw [aeskwUnwrapRaw, if_neg (by have := Nat.mod_eq_zero_of_dvd hdvd; omega), if_neg (by omega)]
  simp only [hrounds]
  rw [kwUnwrap, hcut, List.drop_left' (Buf.length_read _ _ _),
    List.take_left' (Buf.length_read _ _ _), Buf.length_read]

/-- `aeskw_unwrap` compares the initial value of the ciphertext with the one it is given. -/
theorem aeskwUnwrap_eq (hlong : 3 * AES_KEY_WRAP_BLOCK_SIZE ≤ inDataLen)
    (hshort : inDataLen ≤ UINT32_MAX) (hroom : inDataLen - AES_KEY_WRAP_BLOCK_SIZE ≤ outDataLen) :
    aeskwUnwrap (ecbOf p) mem inData inDataLen outData outDataLen iv
      = if (kwUnwrap p (mem.read inData inDataLen)).1 ≠ (iv.getD aeskwDefaultIv).toList then
          ⟨.encryptedDataInvalid,
            cleanse (mem.write outData (kwUnwrap p (mem.read inData inDataLen)).2) outData
              (inDataLen - AES_KEY_WRAP_BLOCK_SIZE),
            inDataLen - AES_KEY_WRAP_BLOCK_SIZE⟩
        else
          ⟨.ok, mem.write outData (kwUnwrap p (mem.read inData inDataLen)).2,
            inDataLen - AES_KEY_WRAP_BLOCK_SIZE⟩ := by
  rw [aeskwUnwrap, aeskwUnwrapRaw_eq p mem inData outData hdvd hlong hshort hroom]

end

end

end

end OpenCryptoki.Proofs.Common
