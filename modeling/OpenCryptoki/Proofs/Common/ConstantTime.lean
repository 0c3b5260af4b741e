import OpenCryptoki.Common.ConstantTime

/-!
# `OpenCryptoki.Proofs.Common.ConstantTime`: masks are decisions

Every mask that `constant_time.h` computes is `maskOf` of a condition: all ones if it holds, and
zero otherwise. The bit operations on masks are the logical ones, and a selection by a mask is an
`if`. The proofs of the functions that use the masks only work with conditions.
-/

set_option autoImplicit false

namespace OpenCryptoki.Proofs.Common

open OpenCryptoki.Common
open BitVec (allOnes allOnes_and eq_of_toNat_eq msb_eq_decide msb_xor ofNat or_zero setWidth_and
  toNat_inj toNat_ofNat toNat_sub zero_and zero_or)

/-- A condition as a mask. -/
def maskOf (p : Prop) [Decidable p] : CUInt := if p then BitVec.allOnes 32 else 0

section
variable (p q : Prop) [Decidable p] [Decidable q]

/-- The mask of what holds. -/
theorem maskOf_true (hp : p) : maskOf p = allOnes 32 := if_pos hp

/-- The mask of what does not hold. -/
theorem maskOf_false (hp : ¬ p) : maskOf p = 0 := if_neg hp

/-- The conjunction of masks. -/
theorem maskOf_and : maskOf p &&& maskOf q = maskOf (p ∧ q) := by
  by_cases hp : p <;> by_cases hq : q <;> simp [maskOf, hp, hq]

/-- The disjunction of masks. -/
theorem maskOf_or : maskOf p ||| maskOf q = maskOf (p ∨ q) := by
  by_cases hp : p <;> by_cases hq : q <;> simp [maskOf, hp, hq]

/-- The negation of a mask. -/
theorem maskOf_not : ~~~ maskOf p = maskOf (¬ p) := by
  by_cases hp : p <;> simp [maskOf, hp]

/-- A selection by a mask is a branch. -/
theorem constantTimeSelect_maskOf (a b : CUInt) :
    constantTimeSelect (maskOf p) a b = if p then a else b := by
  by_cases hp : p
  · rw [maskOf_true p hp, if_pos hp, constantTimeSelect, BitVec.not_allOnes, allOnes_and,
      zero_and, or_zero]
  · rw [maskOf_false p hp, if_neg hp, constantTimeSelect]
    show (0#32 &&& a) ||| (~~~ 0#32 &&& b) = b
    rw [BitVec.not_zero, allOnes_and, zero_and, zero_or]

/-- The same for bytes. -/
theorem constantTimeSelect8_maskOf (a b : UInt8) :
    constantTimeSelect8 (maskOf p) a b = if p then a else b := by
  have hbyte : ∀ c : UInt8, UInt8.ofBitVec ((byteToUInt c).setWidth 8) = c := by
    intro c
    rw [byteToUInt, BitVec.setWidth_setWidth_of_le _ (by decide), BitVec.setWidth_eq]
  rw [constantTimeSelect8, constantTimeSelect, BitVec.setWidth_or, setWidth_and,
    setWidth_and]
  by_cases hp : p
  · have hmask : (~~~ ((allOnes 32).setWidth 8).setWidth 32).setWidth 8 = 0#8 := by decide
    have hones : (((allOnes 32).setWidth 8).setWidth 32).setWidth 8 = allOnes 8 := by
      decide
    rw [maskOf_true p hp, if_pos hp, hmask, hones, allOnes_and, zero_and,
      or_zero, hbyte]
  · have hmask : (~~~ ((0 : CUInt).setWidth 8).setWidth 32).setWidth 8 = allOnes 8 := by
      decide
    have hzero : (((0 : CUInt).setWidth 8).setWidth 32).setWidth 8 = 0#8 := by decide
    rw [maskOf_false p hp, if_neg hp, hmask, hzero, allOnes_and, zero_and,
      zero_or, hbyte]

end

/-- The top bit decides. -/
theorem constantTimeMsb_eq (a : CUInt) : constantTimeMsb a = maskOf (a.msb = true) := by
  have hmsb : a.msb = decide (2 ^ 31 ≤ a.toNat) := msb_eq_decide a
  rw [constantTimeMsb, hmsb]
  by_cases h : 2 ^ 31 ≤ a.toNat
  · have hone : a >>> 31 = 1 := eq_of_toNat_eq (by
      rw [BitVec.toNat_ushiftRight, Nat.shiftRight_eq_div_pow]
      show a.toNat / 2 ^ 31 = 1
      omega)
    rw [hone, maskOf_true _ (decide_eq_true h)]
    rfl
  · have hzero : a >>> 31 = 0 := eq_of_toNat_eq (by
      rw [BitVec.toNat_ushiftRight, Nat.shiftRight_eq_div_pow]
      show a.toNat / 2 ^ 31 = 0
      omega)
    rw [hzero, maskOf_false _ (by simpa using h)]
    rfl

variable (a b : CUInt)

/-- The mask of a comparison. -/
theorem constantTimeLt_eq : constantTimeLt a b = maskOf (a.toNat < b.toNat) := by
  have hsub : (a - b).toNat = (2 ^ 32 - b.toNat + a.toNat) % 2 ^ 32 := toNat_sub a b
  have hiff : (a ^^^ ((a ^^^ b) ||| ((a - b) ^^^ b))).msb = true ↔ a.toNat < b.toNat := by
    rw [msb_xor, BitVec.msb_or, msb_xor, msb_xor, msb_eq_decide a,
      msb_eq_decide b, msb_eq_decide (a - b), hsub]
    -- The three top bits decide.
    by_cases h₁ : 2 ^ 31 ≤ a.toNat <;> by_cases h₂ : 2 ^ 31 ≤ b.toNat <;>
      by_cases h₃ : 2 ^ 31 ≤ (2 ^ 32 - b.toNat + a.toNat) % 2 ^ 32 <;>
      simp only [Nat.add_one_sub_one, h₁, h₂, h₃] <;> simp <;> omega
  rw [constantTimeLt, constantTimeMsb_eq]
  exact if_congr hiff rfl rfl

/-- The mask of the opposite comparison. -/
theorem constantTimeGe_eq : constantTimeGe a b = maskOf (b.toNat ≤ a.toNat) := by
  rw [constantTimeGe, constantTimeLt_eq, maskOf_not]
  exact if_congr not_lt rfl rfl

/-- The mask of a test for zero. -/
theorem constantTimeIsZero_eq (a : CUInt) : constantTimeIsZero a = maskOf (a = 0) := by
  have hiff : (~~~ a &&& (a - 1)).msb = true ↔ a = 0 := by
    have hsub : (a - 1).toNat = (2 ^ 32 - 1 + a.toNat) % 2 ^ 32 := toNat_sub a 1
    have hzero : a = 0 ↔ a.toNat = 0 := ⟨fun h => by rw [h]; rfl, fun h => eq_of_toNat_eq h⟩
    rw [hzero, BitVec.msb_and, BitVec.msb_not, msb_eq_decide a, msb_eq_decide (a - 1),
      hsub]
    by_cases h₁ : 2 ^ 31 ≤ a.toNat <;> by_cases h₂ : 2 ^ 31 ≤ (2 ^ 32 - 1 + a.toNat) % 2 ^ 32 <;>
      simp only [Nat.add_one_sub_one, h₁, h₂] <;> simp <;> omega
  rw [constantTimeIsZero, constantTimeMsb_eq]
  exact if_congr hiff rfl rfl

/-- The mask of an equality. -/
theorem constantTimeEq_eq : constantTimeEq a b = maskOf (a = b) := by
  rw [constantTimeEq, constantTimeIsZero_eq]
  exact if_congr BitVec.xor_eq_zero_iff rfl rfl

/-! ### Conversions -/

/-- A byte keeps its value as an `unsigned int`. -/
theorem byteToUInt_eq_iff (b : UInt8) {c : Nat} (hc : c < 256) :
    byteToUInt b = ofNat 32 c ↔ b = UInt8.ofNat c := by
  rw [← toNat_inj, ← UInt8.toNat_inj, byteToUInt]
  simp
  omega

/-- A test of a byte for zero. -/
theorem constantTimeIsZero_byteToUInt (b : UInt8) :
    constantTimeIsZero (byteToUInt b) = maskOf (b = 0) := by
  rw [constantTimeIsZero_eq]
  exact if_congr (byteToUInt_eq_iff b (c := 0) (by decide)) rfl rfl

/-- A small number as an `unsigned int`. -/
theorem toNat_toUInt {k : Nat} (h : k < 2 ^ 32) : (toUInt k).toNat = k := by
  rw [toUInt, toNat_ofNat, Nat.mod_eq_of_lt h]

/-- Two numbers that an `unsigned int` does not tell apart. -/
theorem toUInt_eq_iff (a b : Nat) : toUInt a = toUInt b ↔ a % 2 ^ 32 = b % 2 ^ 32 := by
  rw [← toNat_inj, toUInt, toUInt, toNat_ofNat, toNat_ofNat]

/-- The sign is extended on the way to 64 bits. -/
theorem ofInt_eq (v : CUInt) :
    ofInt v = v.toNat + if 2 ^ 31 ≤ v.toNat then 2 ^ 64 - 2 ^ 32 else 0 := by
  rw [ofInt, BitVec.toNat_signExtend, BitVec.toNat_setWidth, msb_eq_decide,
    Nat.mod_eq_of_lt (by omega)]
  simp

/-- What is stored as an `int` can be read back. -/
theorem toUInt_ofInt (v : CUInt) : toUInt (ofInt v) = v := by
  apply eq_of_toNat_eq
  rw [toUInt, toNat_ofNat, ofInt_eq]
  split <;> omega

/-- A number without the sign bit comes back. -/
theorem ofInt_toUInt {n : Nat} (h : n < 2 ^ 31) : ofInt (toUInt n) = n := by
  rw [ofInt_eq, toNat_toUInt (by omega), if_neg (by omega), add_zero]

end OpenCryptoki.Proofs.Common
