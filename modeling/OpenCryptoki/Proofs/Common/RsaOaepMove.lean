import Mathlib.Data.Nat.Bitwise
import OpenCryptoki.Common.RsaOaep
import OpenCryptoki.Proofs.Common.ConstantTime

/-!
# `OpenCryptoki.Proofs.Common.RsaOaepMove`: the loops of `decode_eme_oaep`

What the search for the separator, the move of the message and the copy of the message compute,
with the masks as conditions.
-/

set_option autoImplicit false

namespace OpenCryptoki.Proofs.Common

open Lib OpenCryptoki.Common List

/-! ### The search for the separator -/

/-- One byte of the scan, with masks as conditions. -/
theorem oaepScanByte_eq (p q : Prop) [Decidable p] [Decidable q] (b : UInt8) (i one : Nat) :
    oaepScanByte b i ⟨one, maskOf p, maskOf q⟩
      = ⟨ofInt (if ¬ p ∧ b = 1 then toUInt i else toUInt one), maskOf (p ∨ b = 1),
          maskOf (q ∧ ((p ∨ b = 1) ∨ b = 0))⟩ := by
  have hone : constantTimeEq (byteToUInt b) 1 = maskOf (b = 1) := by
    rw [constantTimeEq_eq]
    exact if_congr (byteToUInt_eq_iff b (c := 1) (by decide)) rfl rfl
  simp only [oaepScanByte, hone, constantTimeIsZero_byteToUInt, maskOf_not, maskOf_or, maskOf_and,
    constantTimeSelectInt, constantTimeSelect_maskOf]

section
variable (q : Prop) [Decidable q] (bs : List UInt8) (i one : Nat)

/-- Behind the separator nothing changes. -/
theorem oaepScan_found :
    ∃ one', oaepScan bs i ⟨one, maskOf True, maskOf q⟩ = ⟨one', maskOf True, maskOf q⟩ ∧
      toUInt one' = toUInt one := by
  induction bs generalizing i one with
  | nil => exact ⟨one, rfl, rfl⟩
  | cons b bs ih =>
    obtain ⟨one', hscan, hone⟩ := ih (i + 1) (ofInt (toUInt one))
    refine ⟨one', ?_, hone.trans (toUInt_ofInt _)⟩
    rw [oaepScan, oaepScanByte_eq]
    simpa using hscan

/-- The search finds the separator of `00 .. 00 01 m`. -/
theorem oaepScan_separator (q : Prop) [Decidable q] (z : Nat) (m : List UInt8) (i one : Nat) :
    ∃ one', oaepScan (replicate z 0 ++ (1 :: m)) i ⟨one, maskOf False, maskOf q⟩
        = ⟨one', maskOf True, maskOf q⟩ ∧ toUInt one' = toUInt (i + z) := by
  induction z generalizing i one with
  | zero =>
    obtain ⟨one', hscan, hone⟩ := oaepScan_found q m (i + 1) (ofInt (toUInt i))
    refine ⟨one', ?_, hone.trans (toUInt_ofInt _)⟩
    show oaepScan m (i + 1) (oaepScanByte 1 i _) = _
    rw [oaepScanByte_eq]
    simpa using hscan
  | succ z ih =>
    obtain ⟨one', hscan, hone⟩ := ih (i + 1) (ofInt (toUInt one))
    refine ⟨one', ?_, by rw [hone, add_assoc, add_comm 1 z]⟩
    rw [replicate_succ, cons_append, oaepScan, oaepScanByte_eq]
    simpa using hscan

/-- Once the search has failed, it stays so. -/
theorem oaepScan_failed (bs : List UInt8) (i : Nat) {s : OaepScan} (h : s.ok = 0) :
    (oaepScan bs i s).ok = 0 := by
  induction bs generalizing i s with
  | nil => exact h
  | cons b bs ih =>
    refine ih (i + 1) ?_
    show s.ok &&& _ = 0
    rw [h]
    exact BitVec.zero_and

/-- Without such a separator the search fails, or it finds nothing. -/
theorem oaepScan_none (h : ¬ ∃ z m, bs = replicate z 0 ++ (1 :: m)) :
    (oaepScan bs i ⟨one, maskOf False, maskOf q⟩).ok
      &&& (oaepScan bs i ⟨one, maskOf False, maskOf q⟩).foundOneByte = 0 := by
  induction bs generalizing i one with
  | nil => exact BitVec.and_zero
  | cons b bs ih =>
    rw [oaepScan, oaepScanByte_eq]
    by_cases hzero : b = 0
    · subst hzero
      have hnone : ¬ ∃ z m, bs = replicate z 0 ++ (1 :: m) := by
        rintro ⟨z, m, rfl⟩
        exact h ⟨z + 1, m, by rw [replicate_succ, cons_append]⟩
      simpa using ih (i + 1) _ hnone
    · -- The byte is neither a zero nor the separator.
      have hone : b ≠ 1 := by
        rintro rfl
        exact h ⟨0, bs, rfl⟩
      rw [oaepScan_failed bs (i + 1) (by simp [hzero, hone, maskOf])]
      exact BitVec.zero_and

end

/-! ### The move -/

/-- Move a byte string to the left by `s` bytes. The last `s` bytes stay. -/
def moveLeft (s : Nat) (t : List UInt8) : List UInt8 := t.drop s ++ t.drop (t.length - s)

variable {s r i n hlen : Nat} {t pre : List UInt8}

/-- A move to the left keeps the length. -/
theorem length_moveLeft (h : s ≤ t.length) : (moveLeft s t).length = t.length := by
  rw [moveLeft, length_append, length_drop, length_drop]
  omega

/-- A move to the left, byte by byte. -/
theorem moveLeft_cons (hs : 0 < s) (h : s ≤ t.length) (b : UInt8) :
    ∃ a, (b :: t)[s]? = some a ∧ moveLeft s (b :: t) = a :: moveLeft s t := by
  obtain ⟨s, rfl⟩ := Nat.exists_eq_add_of_lt hs
  rw [zero_add] at h ⊢
  refine ⟨t[s], by rw [getElem?_cons_succ, getElem?_eq_getElem], ?_⟩
  have hlast : (b :: t).length - (s + 1) = t.length - (s + 1) + 1 := by
    rw [length_cons]
    omega
  rw [moveLeft, moveLeft, hlast, drop_succ_cons, drop_succ_cons,
    drop_eq_getElem_cons h, cons_append]

/-- What the inner loop of the move does to `t`. -/
theorem oaepMove_eq (p : Prop) [Decidable p] {xs : List UInt8} (hs : 0 < s) (hi : xs.length = i)
    (hr : r + s = t.length) :
    oaepMove (maskOf p) s r i (xs ++ t) = .ok (xs ++ if p then moveLeft s t else t) := by
  induction r generalizing xs t i with
  | zero =>
    have hsame : moveLeft s t = t := by
      rw [moveLeft, drop_of_length_le (by omega), show t.length - s = 0 by omega]
      rfl
    rw [oaepMove, hsame, ite_self]
  | succ r ih =>
    cases t with
    | nil => simp at hr
    | cons b t =>
      rw [length_cons] at hr
      obtain ⟨a, ha, hmove⟩ := moveLeft_cons (t := t) hs (by omega) b
      have hread : (xs ++ b :: t)[i + s]? = some a := by
        rw [getElem?_append_right (by omega), ← ha, ← hi, Nat.add_sub_cancel_left]
      have hb : (xs ++ b :: t)[i]? = some b := by
        rw [getElem?_append_right (by omega), hi, Nat.sub_self]
        rfl
      have hwrite : ∀ c, writeAt (xs ++ b :: t) i [c] = some (xs ++ c :: t) := fun c =>
        writeAt_of_eq xs [b] t rfl hi.symm rfl
      rw [oaepMove, hread, hb]
      simp only [access_some, ok_bind, hwrite]
      rw [constantTimeSelect8_maskOf, hmove]
      -- The next round has the byte that was written in front of it.
      have hnext : ∀ c, oaepMove (maskOf p) s r (i + 1) ((xs ++ [c]) ++ t)
          = .ok ((xs ++ [c]) ++ if p then moveLeft s t else t) := fun c =>
        ih (by rw [length_append, hi]; rfl) (by omega)
      have hnext := hnext (if p then a else b)
      rw [append_assoc, append_assoc] at hnext
      refine hnext.trans ?_
      by_cases hp : p <;> simp [hp]

/-- The mask of the move for a bit. -/
theorem oaepShift_mask (shift : Nat) {j : Nat} (hj : j < 32) :
    ~~~ constantTimeEq (toUInt (2 ^ j &&& shift)) 0 = maskOf (shift.testBit j = true) := by
  have hpow : 2 ^ j < 2 ^ 32 := Nat.pow_lt_pow_right (by decide) hj
  rw [constantTimeEq_eq, maskOf_not, Nat.two_pow_and]
  cases shift.testBit j with
  | false => rfl
  | true =>
    rw [maskOf_true _ rfl]
    refine maskOf_true _ fun hzero => ?_
    have hmod := (toUInt_eq_iff _ 0).mp hzero
    have hpos := Nat.two_pow_pos j
    simp only [Bool.toNat_true, mul_one] at hmod
    omega

/-- One bit more of a number. -/
theorem mod_two_pow_succ (S j : Nat) :
    S % 2 ^ (j + 1) = S % 2 ^ j + if S.testBit j = true then 2 ^ j else 0 := by
  rw [Nat.mod_pow_succ, Nat.testBit_eq_decide_div_mod_eq]
  by_cases h : S / 2 ^ j % 2 = 1
  · simp [h]
  · simp [show S / 2 ^ j % 2 = 0 by omega]

/-- A move by `s` more bytes. -/
theorem take_moveLeft {u : List UInt8} {a : Nat} (ht : t.length = n) (h : a + s ≤ n)
    (htake : t.take (n - a) = u.drop a) : (moveLeft s t).take (n - (a + s)) = u.drop (a + s) := by
  have hdrop : (t.drop s).take (n - (a + s)) = (t.take (n - a)).drop s := by
    rw [drop_take]
    congr 1
    omega
  rw [moveLeft, take_append_of_le_length (by rw [length_drop]; omega), hdrop, htake, drop_drop]

/-- The loop over the bits moves `u` by `S` bytes to the left. `t` is what the loop has made of
`u` with the low `j` bits of `S`. -/
theorem oaepShift_spec (shift j rounds : Nat) (hn : n < 2 ^ 31) (hpre : pre.length = hlen + 1)
    (ht : t.length = n) (hrounds : n ≤ 2 ^ (j + rounds)) :
    ∃ t', oaepShift n shift hlen (pre ++ t).length (rounds + 1) (2 ^ j) (pre ++ t)
        = .ok (pre ++ t') ∧ t'.length = n ∧
      ∀ (S : Nat) (u : List UInt8), toUInt shift = toUInt S → S < n →
        t.take (n - S % 2 ^ j) = u.drop (S % 2 ^ j) → t'.take (n - S) = u.drop S := by
  induction rounds generalizing j t with
  | zero =>
    rw [add_zero] at hrounds
    refine ⟨t, if_neg (by rwa [not_lt]), ht, fun S u _ hSn htake => ?_⟩
    rwa [Nat.mod_eq_of_lt (hSn.trans_le hrounds)] at htake
  | succ rounds ih =>
    by_cases hlt : 2 ^ j < n
    swap
    · refine ⟨t, if_neg hlt, ht, fun S u _ hSn htake => ?_⟩
      rwa [Nat.mod_eq_of_lt (by omega)] at htake
    have hj : j < 31 := (Nat.pow_lt_pow_iff_right (a := 2) (by decide)).mp (hlt.trans hn)
    -- This round moves by `2 ^ j` if the bit is set.
    have hmove : oaepMove (~~~ constantTimeEq (toUInt (2 ^ j &&& shift)) 0) (2 ^ j)
        ((pre ++ t).length - 2 ^ j - (hlen + 1)) (hlen + 1) (pre ++ t)
          = .ok (pre ++ if shift.testBit j = true then moveLeft (2 ^ j) t else t) := by
      rw [oaepShift_mask shift (by omega)]
      refine oaepMove_eq _ (Nat.two_pow_pos j) hpre ?_
      rw [length_append]
      omega
    have hnext : (2 ^ j) <<< 1 % 2 ^ 64 = 2 ^ (j + 1) := by
      have hpow : 2 ^ (j + 1) < 2 ^ 64 := Nat.pow_lt_pow_right (by decide) (by omega)
      rw [Nat.shiftLeft_eq, ← Nat.pow_add_one, Nat.mod_eq_of_lt hpow]
    have hlen : (if shift.testBit j = true then moveLeft (2 ^ j) t else t).length = n := by
      split
      · rw [length_moveLeft (by omega), ht]
      · exact ht
    obtain ⟨t', hshift, ht', hspec⟩ := ih (j + 1) hlen (by rwa [add_right_comm, add_assoc])
    refine ⟨t', ?_, ht', fun S u hS hSn htake => hspec S u hS hSn ?_⟩
    · rw [oaepShift, if_pos hlt]
      show (oaepMove _ _ _ _ _ >>= _) = _
      rw [hmove, ok_bind, hnext, ← hshift, length_append, length_append, ht, hlen]
    · -- `S` and `shift` agree in this bit.
      have hbit : shift.testBit j = S.testBit j := by
        have hmod : (shift % 2 ^ 32).testBit j = (S % 2 ^ 32).testBit j := by
          rw [(toUInt_eq_iff shift S).mp hS]
        rwa [Nat.testBit_mod_two_pow, Nat.testBit_mod_two_pow, decide_eq_true (by omega),
          Bool.true_and, Bool.true_and] at hmod
      have hle := Nat.mod_le S (2 ^ (j + 1))
      rw [mod_two_pow_succ] at hle ⊢
      rw [hbit]
      split at hle
      · next hset =>
        rw [if_pos hset, if_pos hset]
        exact take_moveLeft ht (by omega) htake
      · next hclear =>
        rwa [if_neg hclear, if_neg hclear]

/-! ### The copy -/

/-- The copy of the first `c` bytes of `t`, from index `i` on. -/
theorem oaepCopy_eq {ok : CUInt} {mlen c : Nat} (xs ys : List UInt8) (hpre : pre.length = hlen + 1)
    (hxs : xs.length = i) (hys : r ≤ ys.length) (ht : i + r ≤ t.length)
    (hmask : ∀ k < i + r, ok &&& constantTimeLt (toUInt k) (toUInt mlen) = maskOf (k < c)) :
    oaepCopy ok mlen hlen (pre ++ t) r i (xs ++ ys)
      = .ok (xs ++ ((t.drop i).take (min r (c - i)) ++ ys.drop (min r (c - i)))) := by
  -- The front `xs` is done, and byte `i` is replaced exactly below the bound `c`.
  induction r generalizing i xs ys with
  | zero => simp [oaepCopy]
  | succ r ih =>
    cases ys with
    | nil => simp at hys
    | cons y ys =>
      rw [length_cons] at hys
      have hi : i < t.length := by omega
      have hdrop : t.drop i = t[i] :: t.drop (i + 1) := drop_eq_getElem_cons hi
      have hread : (pre ++ t)[i + hlen + 1]? = some t[i] := by
        rw [getElem?_append_right (by omega), show i + hlen + 1 - pre.length = i by omega,
          getElem?_eq_getElem]
      have hy : (xs ++ y :: ys)[i]? = some y := by
        rw [getElem?_append_right (by omega), hxs, Nat.sub_self]
        rfl
      have hwrite : ∀ b, writeAt (xs ++ y :: ys) i [b] = some (xs ++ b :: ys) := fun b =>
        writeAt_of_eq xs [y] ys rfl hxs.symm rfl
      have hnext : ∀ b, oaepCopy ok mlen hlen (pre ++ t) r (i + 1) ((xs ++ [b]) ++ ys)
          = .ok ((xs ++ [b]) ++ ((t.drop (i + 1)).take (min r (c - (i + 1)))
              ++ ys.drop (min r (c - (i + 1))))) := fun b =>
        ih (xs ++ [b]) ys (by rw [length_append, hxs]; rfl) (by omega) (by omega)
          fun k hk => hmask k (by omega)
      rw [oaepCopy, hmask i (by omega), hread, hy]
      simp only [access_some, ok_bind, hwrite, constantTimeSelect8_maskOf]
      have hnext := hnext (if i < c then t[i] else y)
      rw [append_assoc, append_assoc] at hnext
      refine hnext.trans ?_
      by_cases hc : i < c
      · rw [if_pos hc, hdrop, show min (r + 1) (c - i) = min r (c - (i + 1)) + 1 by omega]
        rfl
      · rw [if_neg hc, show c - i = 0 by omega, show c - (i + 1) = 0 by omega]
        simp

end OpenCryptoki.Proofs.Common
