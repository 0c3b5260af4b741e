import OpenCryptoki.Common.RsaCrt
import Mathlib.NumberTheory.Padics.PadicVal.Basic

/-!
# `OpenCryptoki.Proofs.Common.RsaCrt`: when the search for the primes of a key ends

`calcRsaCrtFromMe_returns_iff` says for which keys `calc_rsa_crt_from_me` returns, whatever numbers
are drawn. The loop of step 3d adds to its bound, so it ends only at a power that is `1` or
`n - 1`. The powers of zero never are, and zero may be drawn.
-/

set_option autoImplicit false

namespace OpenCryptoki.Proofs.Common

open Lib OpenCryptoki.Kmip OpenCryptoki.Common

variable {n r r' t t' budget squarings halvings : Nat} {randoms : List Nat}

/-! ### Step 2 -/

/-- Zero is never odd. -/
theorem halveLoop_zero (budget t : Nat) : halveLoop budget 0 t = none := by
  induction budget generalizing t with
  | zero => rfl
  | succ budget ih => exact ih (t + 1)

/-- An even number is halved to an end. -/
theorem halveLoop_returns (r t : Nat) (h : r ≠ 0) (heven : r % 2 = 0) :
    ∃ budget x, halveLoop budget r t = some x := by
  induction r using Nat.strong_induction_on generalizing t with
  | _ r ih =>
    by_cases hodd : r / 2 % 2 = 1
    · exact ⟨1, _, if_pos hodd⟩
    · obtain ⟨budget, x, hx⟩ := ih (r / 2) (by omega) (t + 1) (by omega) (by omega)
      exact ⟨budget + 1, x, (if_neg hodd).trans hx⟩

/-- Halving keeps the product. -/
theorem halveLoop_mul (h : halveLoop budget r t = some (r', t')) (heven : r % 2 = 0) :
    r' * 2 ^ t' = r * 2 ^ t := by
  induction budget generalizing r t with
  | zero => cases h
  | succ budget ih =>
    have hhalf : r / 2 * 2 ^ (t + 1) = r * 2 ^ t := by
      rw [pow_succ', ← mul_assoc, Nat.div_mul_cancel (Nat.dvd_of_mod_eq_zero heven)]
    simp only [halveLoop] at h
    split at h
    · cases h
      exact hhalf
    · rw [ih h (by omega), hhalf]

/-- The loop ends at an odd number, and a multiple of 4 is halved twice at least. -/
theorem halveLoop_spec (h : halveLoop budget r t = some (r', t')) :
    r' % 2 = 1 ∧ t < t' ∧ (r % 4 = 0 → t + 1 < t') := by
  induction budget generalizing r t with
  | zero => cases h
  | succ budget ih =>
    simp only [halveLoop] at h
    split at h
    · cases h
      exact ⟨‹_›, by omega, by omega⟩
    · obtain ⟨hodd, hlt, -⟩ := ih h
      exact ⟨hodd, by omega, by omega⟩

/-! ### Step 3 -/

/-- A power has the divisors of its base. -/
theorem coprime_pow_mod_iff {y i : Nat} (hi : 0 < i) : (y ^ i % n).Coprime n ↔ y.Coprime n := by
  rw [Nat.Coprime, (Nat.mod_modEq _ _).gcd_eq, ← Nat.Coprime, Nat.coprime_pow_left_iff hi]

/-- `1` and `n - 1` have no common divisor with `n`. -/
theorem ne_one_of_not_coprime {y : Nat} (hn : 1 < n) (h : ¬ y.Coprime n) : y ≠ 1 ∧ y ≠ n - 1 := by
  constructor
  · rintro rfl
    exact h (Nat.coprime_one_left n)
  · rintro rfl
    exact h ((Nat.coprime_self_sub_left hn.le).mpr (Nat.coprime_one_left n))

/-- The powers of a number with a common divisor are neither `1` nor `n - 1`, and nothing else ends
the loop. -/
theorem squareLoop_endless {y : Nat} (hn : 1 < n) (ht : 1 < t) (h : ¬ y.Coprime n) :
    squareLoop n 1 budget t y = none := by
  induction budget generalizing t y with
  | zero => rfl
  | succ budget ih =>
    have hx : ¬ (y ^ 2 % n).Coprime n := fun hx => h ((coprime_pow_mod_iff Nat.two_pos).mp hx)
    obtain ⟨hone, hneg⟩ := ne_one_of_not_coprime hn hx
    simp only [squareLoop, if_pos ht, if_neg hone, if_neg hneg]
    exact ih (by omega) hx

/-- A base with a common divisor is squared without an end. -/
theorem step3Round_endless {g : Nat} (hn : 1 < n) (hr : r % 2 = 1) (ht : 1 < t)
    (h : ¬ g.Coprime n) : step3Round squarings n r t g = none := by
  have hy : ¬ (g ^ r % n).Coprime n := fun hy => h ((coprime_pow_mod_iff (by omega)).mp hy)
  rw [step3Round, if_neg (not_or.mpr (ne_one_of_not_coprime hn hy))]
  exact squareLoop_endless hn ht hy

/-- If every round returns and leaves `t` as it is, so does the step. -/
theorem step3_returns
    (h : n ≠ 0 → ∀ g < n, ∃ e, step3Round squarings n r t g = some (t, e)) :
    (step3 squarings n r randoms t).isSome := by
  induction randoms with
  | nil => rfl
  | cons random randoms ih =>
    by_cases hn : n = 0
    · simp only [step3, bnRandRange, if_pos hn, Option.isSome_some]
    · obtain ⟨e, he⟩ := h hn (random % n) (Nat.mod_lt _ (by omega))
      simp only [step3, bnRandRange, if_neg hn, he]
      cases e with
      | step3g => exact ih
      | step5 y => rfl

/-- With `t = 1` the loop of step 3d is left at once. -/
theorem step3Round_one (n r g : Nat) : ∃ e, step3Round 1 n r 1 g = some (1, e) := by
  simp only [step3Round, squareLoop, Nat.lt_irrefl, if_false]
  split
  · exact ⟨_, rfl⟩
  · split <;> exact ⟨_, rfl⟩

/-- A number that can be halved once. -/
theorem padicValNat_two_of_mod_four {k : Nat} (h : k % 4 = 2) : padicValNat 2 k = 1 := by
  have hdvd : 2 ∣ k := by omega
  have hne : padicValNat 2 k ≠ 0 := (dvd_iff_padicValNat_ne_zero (by omega)).mp hdvd
  have hdiv := padicValNat.div hdvd
  rw [padicValNat.eq_zero_of_not_dvd (by omega)] at hdiv
  omega

/-! ### Steps 1 to 3 -/

/-- Some number of halvings is enough, with `t` squarings in each round. -/
def Returns (n e d : Nat) (randoms : List Nat) : Prop :=
  ∃ halvings, (primeFactorRecovery halvings (padicValNat 2 (d * e - 1)) n e d randoms).isSome

variable {e d : Nat}

/-- The product of odd exponents gets to the third step. -/
theorem primeFactorRecovery_even (h : d * e % 2 = 1) :
    primeFactorRecovery halvings squarings n e d randoms =
      (halveLoop halvings (d * e - 1) 0).bind fun (r, t) => step3 squarings n r randoms t := by
  have hk : ((d : Int) * e - 1).toNat = d * e - 1 := by omega
  simp only [primeFactorRecovery, if_neg (show ¬ ((d : Int) * e - 1) % 2 = 1 by omega), hk]

/-- With zero drawn in the first round, no budget is enough. -/
theorem primeFactorRecovery_zero (h : d * e % 4 = 1) (hn : 1 < n ∨ d * e = 1) :
    primeFactorRecovery halvings squarings n e d (0 :: randoms) = none := by
  rw [primeFactorRecovery_even (by omega), Option.bind_eq_none_iff]
  rintro ⟨r, t⟩ hhalve
  rcases hn with hn | hone
  · obtain ⟨hr, -, ht⟩ := halveLoop_spec hhalve
    have hround : step3Round squarings n r t 0 = none :=
      step3Round_endless hn hr (by omega) (by rw [Nat.coprime_zero_left]; omega)
    simp only [step3, bnRandRange, if_neg (show ¬ n = 0 by omega), Nat.zero_mod, hround]
  · rw [hone, halveLoop_zero] at hhalve
    cases hhalve

/-- The largest power of two in `d * e - 1` is two. -/
theorem returns_of_three (h : d * e % 4 = 3) : Returns n e d randoms := by
  have hhalve : halveLoop 1 (d * e - 1) 0 = some ((d * e - 1) / 2, 1) := if_pos (by omega)
  refine ⟨1, ?_⟩
  rw [primeFactorRecovery_even (by omega), hhalve, padicValNat_two_of_mod_four (by omega)]
  exact step3_returns fun _ g _ => step3Round_one n _ g

/-- Modulo one all powers are `n - 1`, and from no numbers none is drawn. -/
theorem returns_of_le_one (h : d * e % 2 = 1) (hne : d * e ≠ 1) (hn : n ≤ 1) :
    Returns n e d randoms := by
  obtain ⟨halvings, x, hhalve⟩ := halveLoop_returns (d * e - 1) 0 (by omega) (by omega)
  refine ⟨halvings, ?_⟩
  rw [primeFactorRecovery_even h, hhalve]
  refine step3_returns fun hzero g _ => ⟨.step3g, if_pos (.inr ?_)⟩
  obtain rfl : n = 1 := by omega
  exact Nat.mod_one _

/-- The function returns after at most `t` squarings in each of the rounds, whatever numbers are
drawn, if and only if `d * e - 1` is odd or no multiple of four, or the modulus is at most one and
`d * e` is not one. -/
theorem calcRsaCrtFromMe_returns_iff (modulus pubExp privExp : List UInt8) :
    (∀ random : Nat → Nat, ∃ halvings, (calcRsaCrtFromMe halvings
      (padicValNat 2 (wordValue .big privExp * wordValue .big pubExp - 1))
      modulus pubExp privExp random).isSome) ↔
    wordValue .big privExp * wordValue .big pubExp % 4 ≠ 1 ∨
      (wordValue .big modulus ≤ 1 ∧ wordValue .big privExp * wordValue .big pubExp ≠ 1) := by
  simp only [calcRsaCrtFromMe, Option.isSome_map]
  constructor
  · intro h
    by_contra hcond
    obtain ⟨halvings, hsome⟩ := h fun _ => 0
    rw [show (List.range 100).map (fun _ => 0) = 0 :: (List.range 99).map fun _ => 0 from rfl,
      primeFactorRecovery_zero (by omega) (by omega)] at hsome
    cases hsome
  · intro hcond random
    rcases Nat.mod_two_eq_zero_or_one (wordValue .big privExp * wordValue .big pubExp) with
      heven | hodd
    · exact ⟨0, by rw [primeFactorRecovery, if_pos (by omega)]; rfl⟩
    · by_cases hone : wordValue .big privExp * wordValue .big pubExp % 4 = 1
      · exact returns_of_le_one hodd (by omega) (by omega)
      · exact returns_of_three (by omega)

/-- The modulus `15` with the exponents `3` and `3` is a valid key, and no budget is enough. -/
theorem calcRsaCrtFromMe_fifteen_endless :
    ¬ ∃ halvings squarings,
      (calcRsaCrtFromMe halvings squarings [15] [3] [3] fun _ => 0).isSome := by
  rintro ⟨halvings, squarings, hsome⟩
  have hnone : calcRsaCrtFromMe halvings squarings [15] [3] [3] (fun _ => 0) = none :=
    Option.map_eq_none_iff.mpr (primeFactorRecovery_zero (by decide) (.inl (by decide)))
  rw [hnone] at hsome
  cases hsome

end OpenCryptoki.Proofs.Common
