import OpenCryptoki.Proofs.Common.RsaCrt
import OpenCryptoki.Proofs.Kmip.Bignum
import Mathlib.FieldTheory.Finite.Basic

/-!
# `OpenCryptoki.Proofs.Common.RsaCrtComponents`: the components that are found

The search of `calc_rsa_crt_from_me` ends with a square root of one (`Root`), and the greatest
common divisor of step 5 is then a proper factor of the modulus. `crt_recovered_iff`: for a valid
key the function returns the components if and only if one of the numbers that are drawn leads to a
root, no number before it makes a loop endless (`FindsRoot`), and all components have as many bytes
as the larger prime. Whatever it returns for an arbitrary modulus fits it.
-/

set_option autoImplicit false

namespace OpenCryptoki.Proofs.Common

open Lib OpenCryptoki.Kmip OpenCryptoki.Common OpenCryptoki.Proofs.Kmip

variable {n r t t' y y' e d budget squarings halvings : Nat} {randoms : List Nat}

/-! ### The square root -/

/-- A square root of one modulo `n` that is neither `1` nor `n - 1`. -/
structure Root (n y : Nat) : Prop where
  lt : y < n
  ne_one : y ≠ 1
  ne_neg : y ≠ n - 1
  sq : y ^ 2 % n = 1

/-- The loop of step 3d ends at a root. -/
theorem squareLoop_step5 (h : squareLoop n 1 budget t y = some (t', .step5 y')) (hlt : y < n)
    (hone : y ≠ 1) (hneg : y ≠ n - 1) : Root n y' := by
  induction budget generalizing t y with
  | zero => cases h
  | succ budget ih =>
    simp only [squareLoop] at h
    split_ifs at h with hj hsq hsq' hsq <;> try cases h
    · exact ⟨hlt, hone, hneg, hsq⟩
    · exact ih h (Nat.mod_lt _ (by omega)) hsq hsq'
    · exact ⟨hlt, hone, hneg, hsq⟩

/-- The third step goes on with a root only. -/
theorem step3_step5 (h : step3 squarings n r randoms t = some (.ok y)) : Root n y := by
  induction randoms generalizing t with
  | nil => cases h
  | cons random randoms ih =>
    by_cases hn : n = 0
    · simp [step3, bnRandRange, hn] at h
    · simp only [step3, bnRandRange, if_neg hn] at h
      split at h
      · cases h
      · next hround =>
        cases h
        simp only [step3Round] at hround
        split at hround
        · cases hround
        · next hy =>
          obtain ⟨hone, hneg⟩ := not_or.mp hy
          exact squareLoop_step5 hround (Nat.mod_lt _ (by omega)) hone hneg
      · exact ih h

/-- Only a root is found. -/
theorem primeFactorRecovery_root
    (h : primeFactorRecovery halvings squarings n e d randoms = some (.ok y)) : Root n y := by
  simp only [primeFactorRecovery] at h
  split at h
  · cases h
  · obtain ⟨⟨r, t⟩, -, hstep⟩ := Option.bind_eq_some_iff.mp h
    exact step3_step5 hstep

namespace Root

variable (h : Root n y)
include h

/-- A root is not zero. -/
theorem pos : 0 < y := by
  refine Nat.pos_of_ne_zero ?_
  rintro rfl
  simpa using h.sq

/-- `n` divides the product of `y - 1` and `y + 1`. -/
theorem dvd_mul : n ∣ (y - 1) * (y + 1) := by
  have hsub : (y - 1) * (y + 1) = y ^ 2 - y ^ 2 % n := by
    rw [h.sq, mul_comm, ← Nat.sq_sub_sq, one_pow]
  rw [hsub]
  exact Nat.dvd_sub_mod _

/-- A root gives a common divisor with the modulus. -/
theorem gcd_ne_one : Nat.gcd (y - 1) n ≠ 1 := by
  intro hone
  have hdvd : n ∣ y + 1 := (Nat.Coprime.symm hone).dvd_of_dvd_mul_left h.dvd_mul
  have hle := Nat.le_of_dvd (by omega) hdvd
  have hlt := h.lt
  have hne := h.ne_neg
  omega

/-- This divisor is not the modulus itself. -/
theorem gcd_ne_self : Nat.gcd (y - 1) n ≠ n := by
  intro hself
  have hzero : y - 1 = 0 :=
    Nat.eq_zero_of_dvd_of_lt (Nat.gcd_eq_right_iff_dvd.mp hself) (by have := h.lt; omega)
  have hpos := h.pos
  have hne := h.ne_one
  omega

omit h

end Root

/-! ### The search -/

section Search

variable {k t₀ m g : Nat} {random : Nat → Nat}

/-- A power of `g` that the search gets to is a square root: `g ^ (k / 2)`, `g ^ (k / 4)` and so on,
down to an odd exponent. -/
def LeadsToRoot (n k g : Nat) : Prop := ∃ s, 0 < s ∧ 2 ^ s ∣ k ∧ Root n (g ^ (k / 2 ^ s) % n)

/-- A number with a common divisor has no power that is a root. -/
theorem LeadsToRoot.coprime (hn : 1 < n) (h : LeadsToRoot n k g) : g.Coprime n := by
  obtain ⟨s, -, -, hroot⟩ := h
  have hsq : ((g ^ (k / 2 ^ s) % n) ^ 2 % n).Coprime n := by
    rw [hroot.sq]
    exact Nat.coprime_one_left n
  have hexp : k / 2 ^ s ≠ 0 := by
    intro hzero
    refine hroot.ne_one ?_
    rw [hzero, pow_zero, Nat.mod_eq_of_lt hn]
  exact (coprime_pow_mod_iff (Nat.pos_of_ne_zero hexp)).mp
    ((coprime_pow_mod_iff Nat.two_pos).mp hsq)

/-- The squarings that the rounds go through. -/
theorem leadsToRoot_iff (hr : r % 2 = 1) :
    LeadsToRoot n (r * 2 ^ t) g ↔ ∃ i < t, Root n ((g ^ r % n) ^ 2 ^ i % n) := by
  have hpow (i : Nat) : (g ^ r % n) ^ 2 ^ i % n = g ^ (r * 2 ^ i) % n := by
    rw [← Nat.pow_mod, pow_mul]
  have hexp {s : Nat} (hs : s ≤ t) : r * 2 ^ t / 2 ^ s = r * 2 ^ (t - s) := by
    rw [Nat.mul_div_assoc _ (pow_dvd_pow 2 hs), Nat.pow_div hs Nat.two_pos]
  constructor
  · rintro ⟨s, hs, hdvd, hroot⟩
    have hcop : (2 ^ s).Coprime r := (Nat.coprime_two_left.mpr (Nat.odd_iff.mpr hr)).pow_left s
    have hle : s ≤ t :=
      (Nat.pow_dvd_pow_iff_le_right (by decide)).mp (hcop.dvd_of_dvd_mul_left hdvd)
    refine ⟨t - s, by omega, ?_⟩
    rwa [hpow, ← hexp hle]
  · rintro ⟨i, hi, hroot⟩
    refine ⟨t - i, by omega, Dvd.dvd.mul_left (pow_dvd_pow 2 (by omega)) r, ?_⟩
    rw [hexp (by omega), Nat.sub_sub_self hi.le]
    rwa [hpow] at hroot

/-- One more squaring. -/
theorem sq_pow_mod (y n i : Nat) : (y ^ 2 % n) ^ 2 ^ i % n = y ^ 2 ^ (i + 1) % n := by
  rw [← Nat.pow_mod, ← pow_mul, ← pow_succ']

/-- The square roots `1` and `n - 1` are left only for `1`. -/
theorem trivial_not_root (hn : 2 < n) (h : y = 1 ∨ y = n - 1) (i : Nat) :
    ¬ Root n (y ^ 2 ^ i % n) := by
  intro hroot
  rcases h with rfl | rfl
  · refine hroot.ne_one ?_
    rw [one_pow, Nat.mod_eq_of_lt (by omega)]
  · cases i with
    | zero =>
      refine hroot.ne_neg ?_
      rw [pow_zero, pow_one, Nat.mod_eq_of_lt (by omega)]
    | succ i =>
      have hone : (n - 1) ^ 2 % n = 1 := by
        obtain ⟨l, rfl⟩ : ∃ l, n = l + 2 := ⟨n - 2, by omega⟩
        have hsq : (l + 2 - 1) ^ 2 = 1 + (l + 2) * l := by
          rw [show l + 2 - 1 = l + 1 by omega]
          ring
        rw [hsq, Nat.add_mul_mod_self_left, Nat.mod_eq_of_lt (by omega)]
      refine hroot.ne_one ?_
      rw [← sq_pow_mod, hone, one_pow, Nat.mod_eq_of_lt (by omega)]

/-- The first power is a root when its square is 1. -/
theorem root_zero_iff (hlt : y < n) (hone : y ≠ 1) (hneg : y ≠ n - 1) :
    Root n (y ^ 2 ^ 0 % n) ↔ y ^ 2 % n = 1 := by
  rw [pow_zero, pow_one, Nat.mod_eq_of_lt hlt]
  exact ⟨Root.sq, fun h => ⟨hlt, hone, hneg, h⟩⟩

/-- A root among the squares is the first one or comes later. -/
theorem exists_rootAt_succ (hlt : y < n) (hone : y ≠ 1) (hneg : y ≠ n - 1) :
    (∃ i < m + 1, Root n (y ^ 2 ^ i % n)) ↔
      y ^ 2 % n = 1 ∨ ∃ i < m, Root n ((y ^ 2 % n) ^ 2 ^ i % n) := by
  rw [← root_zero_iff hlt hone hneg]
  simp only [sq_pow_mod]
  constructor
  · rintro ⟨_ | i, hi, hroot⟩
    · exact .inl hroot
    · exact .inr ⟨i, by omega, hroot⟩
  · rintro (hroot | ⟨i, hi, hroot⟩)
    · exact ⟨0, by omega, hroot⟩
    · exact ⟨i + 1, by omega, hroot⟩

/-- The loop ends if a square is one in the end, and it finds a root if there is one among the
squares. -/
theorem squareLoop_spec (budget : Nat) (hn : 2 < n) (ht : 1 < t) (hlt : y < n) (hone : y ≠ 1)
    (hneg : y ≠ n - 1) (hpow : y ^ 2 ^ m % n = 1) :
    (∀ t' e, squareLoop n 1 budget t y = some (t', e) →
      1 < t' ∧ ((∃ y', e = .step5 y') ↔ ∃ i < m, Root n (y ^ 2 ^ i % n))) ∧
    (m ≤ budget → (squareLoop n 1 budget t y).isSome) := by
  induction m generalizing budget t y with
  | zero =>
    rw [pow_zero, pow_one, Nat.mod_eq_of_lt hlt] at hpow
    exact absurd hpow hone
  | succ m ih =>
    cases budget with
    | zero => exact ⟨fun _ _ h => (by cases h), fun h => absurd h (by omega)⟩
    | succ budget =>
      simp only [squareLoop, if_pos ht, exists_rootAt_succ hlt hone hneg]
      split_ifs with hsq hsq'
      · refine ⟨?_, fun _ => rfl⟩
        rintro _ _ ⟨⟩
        exact ⟨ht, iff_of_true ⟨y, rfl⟩ (.inl hsq)⟩
      · refine ⟨?_, fun _ => rfl⟩
        rintro _ _ ⟨⟩
        refine ⟨ht, iff_of_false (by rintro ⟨_, ⟨⟩⟩) ?_⟩
        rintro (hroot | ⟨i, -, hroot⟩)
        · exact hsq hroot
        · exact trivial_not_root hn (.inr hsq') i hroot
      · rw [or_iff_right hsq]
        have hnext := ih budget (t := t + 1) (by omega) (Nat.mod_lt _ (by omega)) hsq hsq'
          (by rw [sq_pow_mod, hpow])
        exact ⟨hnext.1, fun h => hnext.2 (by omega)⟩

/-- Powers of numbers without a common divisor are one in the end. -/
def PowersEnd (n k : Nat) : Prop := ∀ g, g.Coprime n → g ^ k % n = 1

/-- What a round does: with `t = 1` there is only one squaring. -/
theorem step3Round_spec (squarings : Nat) (hn : 2 < n) (hr : r % 2 = 1) (ht₀ : 0 < t₀)
    (ht : 1 < t ↔ 1 < t₀) (hpos : 0 < t) (hend : PowersEnd n (r * 2 ^ t₀))
    (hcop : 1 < t₀ → g.Coprime n) :
    (∀ t' e, step3Round squarings n r t g = some (t', e) →
      (1 < t' ↔ 1 < t₀) ∧ 0 < t' ∧ ((∃ y, e = .step5 y) ↔ LeadsToRoot n (r * 2 ^ t₀) g)) ∧
    (t₀ ≤ squarings → (step3Round squarings n r t g).isSome) := by
  rw [leadsToRoot_iff hr]
  simp only [step3Round]
  split
  -- The power is 1 or -1 at once, and squares of it lead to no other root.
  · next hy =>
    refine ⟨?_, fun _ => rfl⟩
    rintro _ _ ⟨⟩
    refine ⟨ht, hpos, iff_of_false (by rintro ⟨_, ⟨⟩⟩) ?_⟩
    rintro ⟨i, -, hroot⟩
    exact trivial_not_root hn hy i hroot
  · next hy =>
    obtain ⟨hone, hneg⟩ := not_or.mp hy
    have hlt : g ^ r % n < n := Nat.mod_lt _ (by omega)
    by_cases hmany : 1 < t₀
    -- Squaring `t₀` times gives 1, which is what ends the loop.
    · have hpow : (g ^ r % n) ^ 2 ^ t₀ % n = 1 := by
        rw [← Nat.pow_mod, ← pow_mul]
        exact hend g (hcop hmany)
      obtain ⟨hspec, hsome⟩ := squareLoop_spec squarings hn (ht.mpr hmany) hlt hone hneg
        hpow
      refine ⟨fun t' e h => ?_, hsome⟩
      obtain ⟨ht', hroot⟩ := hspec t' e h
      exact ⟨iff_of_true ht' hmany, by omega, hroot⟩
    -- With a single factor 2 the loop is left after its first squaring.
    · obtain rfl : t₀ = 1 := by omega
      obtain rfl : t = 1 := by omega
      rw [exists_rootAt_succ hlt hone hneg]
      cases squarings with
      | zero => exact ⟨fun _ _ h => (by cases h), fun h => absurd h (by omega)⟩
      | succ squarings =>
        simp only [squareLoop, if_neg (lt_irrefl 1)]
        split_ifs with hsq
        · refine ⟨?_, fun _ => rfl⟩
          rintro _ _ ⟨⟩
          exact ⟨Iff.rfl, hpos, iff_of_true ⟨_, rfl⟩ (.inl hsq)⟩
        · refine ⟨?_, fun _ => rfl⟩
          rintro _ _ ⟨⟩
          refine ⟨Iff.rfl, hpos, iff_of_false (by rintro ⟨_, ⟨⟩⟩) ?_⟩
          rintro (hroot | ⟨i, hi, -⟩)
          · exact hsq hroot
          · omega

/-- One of the numbers that are drawn in `len` rounds leads to a root, and no number before it makes
the loop of step 3d endless. -/
def FindsRoot (n k : Nat) (random : Nat → Nat) (first len : Nat) : Prop :=
  ∃ i, first ≤ i ∧ i < first + len ∧ LeadsToRoot n k (random i % n) ∧
    (4 ∣ k → ∀ j, first ≤ j → j < i → (random j % n).Coprime n)

/-- Two halvings are possible. -/
theorem four_dvd_iff (hr : r % 2 = 1) : 4 ∣ r * 2 ^ t ↔ 1 < t := by
  match t with
  | 0 => omega
  | 1 => omega
  | t + 2 => exact iff_of_true (Dvd.dvd.mul_left (pow_dvd_pow 2 (Nat.le_add_left 2 t)) r) (by omega)

section
variable (hn : 2 < n) (hr : r % 2 = 1) (ht₀ : 0 < t₀) (hend : PowersEnd n (r * 2 ^ t₀))
include hn hr ht₀ hend

/-- If the third step returns a root, one of the random numbers leads to it. -/
theorem findsRoot_of_step3 {first len : Nat} (ht : 1 < t ↔ 1 < t₀) (hpos : 0 < t)
    (h : step3 squarings n r ((List.range' first len).map random) t = some (.ok y)) :
    FindsRoot n (r * 2 ^ t₀) random first len := by
  induction len generalizing first t with
  | zero => cases h
  | succ len ih =>
    rw [List.range'_succ, List.map_cons] at h
    simp only [step3, bnRandRange, if_neg (show ¬ n = 0 by omega)] at h
    have hcop : 1 < t₀ → (random first % n).Coprime n := by
      intro hmany
      by_contra hnot
      rw [step3Round_endless (by omega) hr (ht.mpr hmany) hnot] at h
      cases h
    have hround := (step3Round_spec squarings hn hr ht₀ ht hpos hend hcop).1
    split at h
    · cases h
    · next hstep =>
      refine ⟨first, le_rfl, by omega, (hround _ _ hstep).2.2.mp ⟨_, rfl⟩, fun _ j hj hlt => ?_⟩
      omega
    · next t' hstep =>
      obtain ⟨ht', hpos', -⟩ := hround _ _ hstep
      obtain ⟨i, hi, hlt, hleads, hbefore⟩ := ih ht' hpos' h
      refine ⟨i, by omega, by omega, hleads, fun hfour j hj hji => ?_⟩
      by_cases hfirst : j = first
      · rw [hfirst]
        exact hcop ((four_dvd_iff hr).mp hfour)
      · exact hbefore hfour j (by omega) hji

/-- If a random number leads to a root, the third step returns one. -/
theorem step3_of_findsRoot {first len : Nat} (ht : 1 < t ↔ 1 < t₀) (hpos : 0 < t)
    (h : FindsRoot n (r * 2 ^ t₀) random first len) :
    ∃ y, step3 t₀ n r ((List.range' first len).map random) t = some (.ok y) := by
  induction len generalizing first t with
  | zero =>
    obtain ⟨i, hi, hlt, -⟩ := h
    omega
  | succ len ih =>
    obtain ⟨i, hi, hlt, hleads, hbefore⟩ := h
    have hcop : 1 < t₀ → (random first % n).Coprime n := by
      intro hmany
      by_cases hfirst : i = first
      · rw [← hfirst]
        exact hleads.coprime (by omega)
      · exact hbefore ((four_dvd_iff hr).mpr hmany) first le_rfl (by omega)
    obtain ⟨hround, hsome⟩ := step3Round_spec t₀ hn hr ht₀ ht hpos hend hcop
    obtain ⟨⟨t', e⟩, hstep⟩ := Option.isSome_iff_exists.mp (hsome le_rfl)
    obtain ⟨ht', hpos', hroot⟩ := hround t' e hstep
    rw [List.range'_succ, List.map_cons]
    simp only [step3, bnRandRange, if_neg (show ¬ n = 0 by omega), hstep]
    cases e with
    | step5 y => exact ⟨y, rfl⟩
    | step3g =>
      have hne : i ≠ first := by
        rintro rfl
        obtain ⟨_, ⟨⟩⟩ := hroot.mpr hleads
      exact ih ht' hpos' ⟨i, by omega, by omega, hleads, fun hfour j hj hji =>
        hbefore hfour j (by omega) hji⟩

end

/-- The powers end at one for a modulus of two primes, if the exponents belong to it. -/
theorem powersEnd_of_primes {p q : Nat} (hp : p.Prime) (hq : q.Prime) (hne : p ≠ q)
    (hk : Nat.lcm (p - 1) (q - 1) ∣ k) : PowersEnd (p * q) k := by
  intro g hg
  have hmod {l : Nat} (hl : l.Prime) (hcop : g.Coprime l) (hdvd : l - 1 ∣ k) :
      g ^ k ≡ 1 [MOD l] := by
    obtain ⟨i, rfl⟩ := hdvd
    rw [pow_mul, ← Nat.totient_prime hl]
    simpa using (Nat.ModEq.pow_totient hcop).pow i
  have hboth : g ^ k ≡ 1 [MOD p * q] :=
    (Nat.modEq_and_modEq_iff_modEq_mul ((Nat.coprime_primes hp hq).mpr hne)).mp
      ⟨hmod hp hg.coprime_mul_right_right ((Nat.dvd_lcm_left _ _).trans hk),
        hmod hq hg.coprime_mul_left_right ((Nat.dvd_lcm_right _ _).trans hk)⟩
  exact Eq.trans hboth (Nat.mod_eq_of_lt (Nat.one_lt_mul_iff.mpr ⟨hp.pos, hq.pos, .inl hp.one_lt⟩))

/-- Steps 1 to 3 find a root if and only if one of a hundred numbers leads to it in time. -/
theorem primeFactorRecovery_iff {e d : Nat} (random : Nat → Nat) (hn : 2 < n)
    (hodd : d * e % 2 = 1) (hne : d * e ≠ 1) (hend : PowersEnd n (d * e - 1)) :
    (∃ halvings squarings y, primeFactorRecovery halvings squarings n e d
        ((List.range 100).map random) = some (.ok y)) ↔
      FindsRoot n (d * e - 1) random 0 100 := by
  simp only [primeFactorRecovery_even hodd, List.range_eq_range', Option.bind_eq_some_iff]
  constructor
  · rintro ⟨halvings, squarings, y, ⟨r, t⟩, hhalve, hstep⟩
    obtain ⟨hr, hpos, -⟩ := halveLoop_spec hhalve
    have hk := halveLoop_mul hhalve (by omega)
    rw [pow_zero, mul_one] at hk
    rw [← hk] at hend ⊢
    exact findsRoot_of_step3 hn hr hpos hend Iff.rfl hpos hstep
  · intro h
    obtain ⟨halvings, ⟨r, t⟩, hhalve⟩ := halveLoop_returns (d * e - 1) 0 (by omega) (by omega)
    obtain ⟨hr, hpos, -⟩ := halveLoop_spec hhalve
    have hk := halveLoop_mul hhalve (by omega)
    rw [pow_zero, mul_one] at hk
    rw [← hk] at hend h
    obtain ⟨y, hy⟩ := step3_of_findsRoot hn hr hpos hend Iff.rfl hpos h
    exact ⟨halvings, t, y, ⟨r, t⟩, hhalve, hy⟩

end Search

/-- The exponents belong to the odd primes `p` and `q`. -/
structure ValidKey (p q e d : Nat) : Prop where
  prime_p : p.Prime
  prime_q : q.Prime
  lt : q < p
  odd : q ≠ 2
  inverse : e * d ≡ 1 [MOD Nat.lcm (p - 1) (q - 1)]
  one_lt : 1 < e * d

namespace ValidKey
variable {p q e d : Nat} (h : ValidKey p q e d)
include h

/-- The exponents belong together. -/
theorem lcm_dvd : Nat.lcm (p - 1) (q - 1) ∣ d * e - 1 := by
  rw [mul_comm]
  exact (Nat.modEq_iff_dvd' h.one_lt.le).mp h.inverse.symm

/-- The exponents are odd. -/
theorem odd_mul : d * e % 2 = 1 := by
  have hp : 2 ∣ p - 1 := by
    have hodd := h.prime_p.eq_two_or_odd
    have := h.prime_q.two_le
    have := h.lt
    omega
  have hdvd := (hp.trans (Nat.dvd_lcm_left _ (q - 1))).trans h.lcm_dvd
  have := h.one_lt
  rw [mul_comm] at this
  omega

/-- The exponents are not both 1. -/
theorem mul_ne_one : d * e ≠ 1 := by
  rw [mul_comm]
  exact h.one_lt.ne'

/-- The modulus is larger than 2. -/
theorem two_lt_mul : 2 < p * q := by
  have hq := h.prime_q.two_le
  have hle : p ≤ p * q := Nat.le_mul_of_pos_right p h.prime_q.pos
  have := h.lt
  omega

end ValidKey

/-! ### The components -/

variable {p q invq : Nat} {c : CrtComponents Nat}

/-- What `BN_mod_inverse` returns is the inverse. -/
theorem bnModInverse_spec (h : bnModInverse q p = .ok invq) : invq < p ∧ q * invq % p = 1 := by
  unfold bnModInverse at h
  split at h
  · cases h
  · next x hx =>
    cases h
    exact ⟨List.mem_range.mp (List.mem_of_find?_eq_some hx), by simpa using List.find?_some hx⟩

/-- The inverse is what `BN_mod_inverse` returns. -/
theorem bnModInverse_eq (hlt : invq < p) (hinv : q * invq % p = 1) (hcop : Nat.Coprime p q) :
    bnModInverse q p = .ok invq := by
  cases h : bnModInverse q p with
  | error rc =>
    unfold bnModInverse at h
    split at h
    · next hnone => exact absurd hinv (by simpa using List.find?_eq_none.mp hnone invq (by simpa))
    · cases h
  | ok x =>
    obtain ⟨hx, hxinv⟩ := bnModInverse_spec h
    have hmod : q * x ≡ q * invq [MOD p] := hxinv.trans hinv.symm
    rw [(hmod.cancel_left_of_coprime hcop).eq_of_lt_of_lt hx hlt]

/-- What the components of a modulus have to be. -/
structure FitsModulus (n d : Nat) (c : CrtComponents Nat) : Prop where
  primes : c.prime1 * c.prime2 = n
  exponent1 : c.exponent1 = d % (c.prime1 - 1)
  exponent2 : c.exponent2 = d % (c.prime2 - 1)
  coef : c.coef < c.prime1 ∧ c.prime2 * c.coef % c.prime1 = 1

/-- Components of two factors fit the modulus. -/
theorem crtOfFactors_fits (h : crtOfFactors d p q = .ok c) : FitsModulus (p * q) d c := by
  unfold crtOfFactors at h
  split at h
  · cases h
  · cases hinv : bnModInverse q p with
    | error rc => rw [hinv] at h; cases h
    | ok invq =>
      rw [hinv] at h
      cases h
      exact ⟨rfl, rfl, rfl, bnModInverse_spec hinv⟩

/-- Components that the fifth step returns fit the modulus. -/
theorem step5_fits (h : step5 n d y = .ok c) : FitsModulus n d c := by
  have hn : Nat.gcd (y - 1) n * (n / Nat.gcd (y - 1) n) = n :=
    Nat.mul_div_cancel' (Nat.gcd_dvd_right _ _)
  simp only [step5] at h
  split at h
  · have hfits := crtOfFactors_fits h
    rwa [mul_comm, hn] at hfits
  · have hfits := crtOfFactors_fits h
    rwa [hn] at hfits

/-- From a root, the fifth step returns the components. -/
theorem step5_eq (h : Root (p * q) y) (hp : p.Prime) (hq : q.Prime) (hlt : q < p)
    (hinvlt : invq < p) (hinv : q * invq % p = 1) :
    step5 (p * q) d y = .ok ⟨p, q, d % (p - 1), d % (q - 1), invq⟩ := by
  have hfactors : step5 (p * q) d y = crtOfFactors d p q := by
    simp only [step5]
    -- A divisor of two primes that is neither 1 nor their product is one of them.
    have heq : Nat.gcd (y - 1) (p * q) = p ∨ Nat.gcd (y - 1) (p * q) = q := by
      obtain ⟨a, b, ha, hb, hab⟩ := Nat.dvd_mul.mp (Nat.gcd_dvd_right (y - 1) (p * q))
      rcases (Nat.dvd_prime hp).mp ha with rfl | rfl <;>
        rcases (Nat.dvd_prime hq).mp hb with rfl | rfl
      · exact absurd hab.symm h.gcd_ne_one
      · exact .inr (by rw [← hab, one_mul])
      · exact .inl (by rw [← hab, mul_one])
      · exact absurd hab.symm h.gcd_ne_self
    rcases heq with hgcd | hgcd
    · rw [hgcd, Nat.mul_div_cancel_left q hp.pos, if_neg (by omega)]
    · rw [hgcd, Nat.mul_div_cancel p hq.pos, if_pos hlt]
  have hcop : Nat.Coprime p q := (Nat.coprime_primes hp hq).mpr (by omega)
  have hq1 := hq.one_lt
  rw [hfactors, crtOfFactors, if_neg (by omega), bnModInverse_eq hinvlt hinv hcop]
  rfl

/-! ### The attributes -/

/-- A number is the value of its bytes. -/
theorem map_value_of_length {len : Nat} (h : c.OfLength len) :
    (c.map (wordBytes .big len)).map (wordValue .big) = c := by
  have hvalue (v : Nat) (hv : bnNumBytes v = len) : wordValue .big (wordBytes .big len v) = v :=
    wordValue_wordBytes_of_lt ((bnNumBytes_le_iff v len).mp hv.le)
  obtain ⟨h1, h2, h3, h4, h5⟩ := CrtComponents.mk.inj h
  simp only [CrtComponents.map, hvalue, h1, h2, h3, h4, h5]

variable {modulus pubExp privExp : List UInt8} {random : Nat → Nat}

/-- The search ends with a square root. -/
def ReachesStep5 (halvings squarings : Nat) (modulus pubExp privExp : List UInt8)
    (random : Nat → Nat) (y : Nat) : Prop :=
  primeFactorRecovery halvings squarings (wordValue .big modulus) (wordValue .big pubExp)
    (wordValue .big privExp) ((List.range 100).map random) = some (.ok y)

/-- The function succeeds if it gets to the fifth step and the components fit. -/
theorem calcRsaCrtFromMe_ok_iff {attrs : CrtComponents (List UInt8)} :
    calcRsaCrtFromMe halvings squarings modulus pubExp privExp random = some (.ok attrs) ↔
      ∃ y c, ReachesStep5 halvings squarings modulus pubExp privExp random y ∧
        step5 (wordValue .big modulus) (wordValue .big privExp) y = .ok c ∧
        c.OfLength (bnNumBytes c.prime1) ∧
        c.map (wordBytes .big (bnNumBytes c.prime1)) = attrs := by
  have hbuild (c : CrtComponents Nat) : buildCrtAttributes c = .ok attrs ↔
      c.OfLength (bnNumBytes c.prime1) ∧ c.map (wordBytes .big (bnNumBytes c.prime1)) = attrs := by
    simp only [buildCrtAttributes]
    split <;> simp [*]
  simp only [calcRsaCrtFromMe, Option.map_eq_some_iff]
  constructor
  · rintro ⟨found, hfound, h⟩
    obtain ⟨y, rfl, hy⟩ := bind_eq_ok.mp h
    obtain ⟨c, hc, hattrs⟩ := bind_eq_ok.mp hy
    exact ⟨y, c, hfound, hc, (hbuild c).mp hattrs⟩
  · rintro ⟨y, c, hfound, hc, hattrs⟩
    exact ⟨_, hfound, bind_eq_ok.mpr ⟨y, rfl, bind_eq_ok.mpr ⟨c, hc, (hbuild c).mpr hattrs⟩⟩⟩

/-- For a valid key the function returns the components if and only if a number that is drawn leads
to a root in time and all of them are as long as `p`. What it returns for an arbitrary key fits the
modulus. -/
theorem crt_recovered_iff (modulus pubExp privExp : List UInt8) (random : Nat → Nat) :
    (∀ p q invq : Nat, ValidKey p q (wordValue .big pubExp) (wordValue .big privExp) →
      wordValue .big modulus = p * q → invq < p → q * invq % p = 1 →
      ∀ c, c = CrtComponents.mk p q (wordValue .big privExp % (p - 1))
        (wordValue .big privExp % (q - 1)) invq →
      ((∃ halvings squarings attrs, calcRsaCrtFromMe halvings squarings modulus pubExp privExp
          random = some (.ok attrs) ∧ attrs.map (wordValue .big) = c) ↔
        FindsRoot (p * q) (wordValue .big privExp * wordValue .big pubExp - 1) random 0 100 ∧
          c.OfLength (bnNumBytes p))) ∧
    ∀ halvings squarings attrs,
      calcRsaCrtFromMe halvings squarings modulus pubExp privExp random = some (.ok attrs) →
      FitsModulus (wordValue .big modulus) (wordValue .big privExp)
        (attrs.map (wordValue .big)) := by
  constructor
  · rintro p q invq hkey hn hinvlt hinv c rfl
    have hsearch := primeFactorRecovery_iff random hkey.two_lt_mul hkey.odd_mul hkey.mul_ne_one
      (powersEnd_of_primes hkey.prime_p hkey.prime_q hkey.lt.ne' hkey.lcm_dvd)
    rw [← hsearch, ← hn]
    simp only [calcRsaCrtFromMe_ok_iff]
    constructor
    · rintro ⟨halvings, squarings, attrs, ⟨y, c, hy, hc, hlen, rfl⟩, hvalues⟩
      rw [map_value_of_length hlen] at hvalues
      subst hvalues
      exact ⟨⟨halvings, squarings, y, hy⟩, hlen⟩
    · rintro ⟨⟨halvings, squarings, y, hy⟩, hlen⟩
      have hroot := primeFactorRecovery_root hy
      refine ⟨halvings, squarings, _, ⟨y, _, hy, ?_, hlen, rfl⟩, map_value_of_length hlen⟩
      rw [hn] at hroot ⊢
      exact step5_eq hroot hkey.prime_p hkey.prime_q hkey.lt hinvlt hinv
  · intro halvings squarings attrs h
    obtain ⟨y, c, -, hc, hlen, rfl⟩ := calcRsaCrtFromMe_ok_iff.mp h
    rw [map_value_of_length hlen]
    exact step5_fits hc

/-- The primes of `15` are found with the root `4`. -/
theorem crt_recovered_fifteen :
    ∃ halvings squarings attrs, calcRsaCrtFromMe halvings squarings [15] [3] [3] (fun _ => 4) =
        some (.ok attrs) ∧ attrs.map (wordValue .big) = ⟨5, 3, 3, 1, 2⟩ :=
  ((crt_recovered_iff [15] [3] [3] fun _ => 4).1 5 3 2
    ⟨Nat.prime_five, Nat.prime_three, by decide, by decide, by decide, by decide⟩ rfl (by decide)
    rfl _ rfl).mpr
    ⟨⟨0, le_rfl, by decide, ⟨3, by decide, by decide, by decide, by decide, by decide, rfl⟩,
      fun _ j _ hj => absurd hj (Nat.not_lt_zero j)⟩, by decide⟩

/-- The smaller prime of `257 * 3` is too short, though every number leads to the root `256`. -/
theorem crt_not_recovered_short_prime :
    3 * 171 % Nat.lcm 256 2 = 1 ∧ LeadsToRoot (257 * 3) (171 * 3 - 1) 256 ∧
    calcRsaCrtFromMe 9 1 [3, 3] [3] [171] (fun _ => 256) = some (.error .functionFailed) := by
  exact ⟨by decide, ⟨9, by decide, by decide, by decide, by decide, by decide, rfl⟩, rfl⟩

end OpenCryptoki.Proofs.Common
