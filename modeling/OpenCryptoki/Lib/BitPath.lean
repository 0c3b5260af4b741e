import Mathlib.Algebra.Order.Ring.Nat
import Mathlib.Data.Nat.Log

/-!
# `OpenCryptoki.Lib.BitPath`: binary trees addressed from the low bit

In a tree addressed from the low bit, the root is number 1, and the path to number `n`
reads the bits of `n` from the lowest one up to the one below the leading bit. Bit 0 goes
to the left and bit 1 to the right.

`descend p i` is the number that is reached from number `p` when the bits of `i` are still
to be read. So `descend 1 n = n`, `descend p 1 = p`, and the children of `p` are
`descend p 2` and `descend p 3`. Everything else follows from one equation: to read the low
bit of `2 * i + b` is to go to child `b` with `i` left (`descend_child`). Read from the left
to the right it is a step of a walk from the root, and from the right to the left it is a
step of a walk up to the root.
-/

set_option autoImplicit false

namespace OpenCryptoki.Lib

/-- The number reached from `p` when the bits of `i` below its leading bit are read from the
lowest one. -/
def descend (p i : Nat) : Nat :=
  p + (i - 1) * 2 ^ Nat.log2 p

/-- The path `1` stays at its node. -/
@[simp] theorem descend_one_right (p : Nat) : descend p 1 = p := by
  simp [descend]

variable {i p b : Nat}

/-- A path from the root ends at its own index. -/
theorem descend_one_left (hi : 0 < i) : descend 1 i = i := by
  have hlog : Nat.log2 1 = 0 := by decide
  rw [descend, hlog]
  omega

/-- A child is one level below its parent. -/
theorem log2_descend_child (hp : 0 < p) (hb : b < 2) :
    Nat.log2 (descend p (2 + b)) = Nat.log2 p + 1 := by
  have hle := Nat.log2_self_le hp.ne'
  have hlt := Nat.lt_log2_self (n := p)
  rw [pow_succ] at hlt
  rw [descend, Nat.log2_eq_iff (by omega), pow_succ, pow_succ]
  obtain rfl | rfl : b = 0 ∨ b = 1 := by omega
  · omega
  · omega

/-- To read the low bit is to go to that child. -/
theorem descend_child (hp : 0 < p) (hb : b < 2) (hi : 0 < i) :
    descend (descend p (2 + b)) i = descend p (2 * i + b) := by
  obtain ⟨j, rfl⟩ : ∃ j, i = j + 1 := ⟨i - 1, by omega⟩
  have hpow : (2 : Nat) ^ (Nat.log2 p + 1) = 2 * 2 ^ Nat.log2 p := Nat.pow_succ'
  rw [descend, log2_descend_child hp hb, descend, descend, hpow]
  have h₁ : 2 + b - 1 = 1 + b := by omega
  have h₂ : 2 * (j + 1) + b - 1 = 1 + b + j * 2 := by omega
  rw [h₁, h₂, Nat.add_sub_cancel, add_mul (1 + b), mul_assoc, add_assoc]

/-- To read the low bit of `i` is to go to that child with the other bits left. -/
theorem descend_halve (hp : 0 < p) (hi : 2 ≤ i) :
    descend (descend p (2 + i % 2)) (i / 2) = descend p i := by
  rw [descend_child hp (Nat.mod_lt _ (by decide)) (by omega), Nat.div_add_mod]

/-- A larger path ends at a larger index. -/
theorem descend_lt {j : Nat} (h : i < j) (hi : 0 < i) : descend p i < descend p j := by
  have hpow := Nat.two_pow_pos (Nat.log2 p)
  rw [descend, descend]
  exact Nat.add_lt_add_left (Nat.mul_lt_mul_of_pos_right (by omega) hpow) p

/-- A path with a step goes down. -/
theorem lt_descend (hi : 2 ≤ i) : p < descend p i := by
  have hlt := descend_lt (p := p) (Nat.one_lt_two.trans_le hi) one_pos
  rwa [descend_one_right] at hlt

/-- A number has one parent, and it is one of its two children. -/
theorem descend_child_inj {q c : Nat} (hp : 0 < p) (hq : 0 < q) (hb : b < 2) (hc : c < 2)
    (h : descend p (2 + b) = descend q (2 + c)) : p = q ∧ b = c := by
  have hlog : Nat.log2 p = Nat.log2 q := by
    have hlevel := congrArg Nat.log2 h
    rw [log2_descend_child hp hb, log2_descend_child hq hc] at hlevel
    omega
  have hple := Nat.log2_self_le hp.ne'
  have hplt := Nat.lt_log2_self (n := p)
  have hqle := Nat.log2_self_le hq.ne'
  have hqlt := Nat.lt_log2_self (n := q)
  rw [descend, descend, hlog] at h
  rw [hlog, pow_succ] at hplt
  rw [hlog] at hple
  rw [pow_succ] at hqlt
  obtain rfl | rfl : b = 0 ∨ b = 1 := by omega
  all_goals
    obtain rfl | rfl : c = 0 ∨ c = 1 := by omega
    · omega
    · omega

end OpenCryptoki.Lib
