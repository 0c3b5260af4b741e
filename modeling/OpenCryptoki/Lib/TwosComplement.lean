import OpenCryptoki.Lib.Bytes

/-!
# `OpenCryptoki.Lib.TwosComplement`: signed numbers as bytes

`signedValue` reads bytes, most significant byte first, as a number in two's complement form. No
bytes at all are zero. `signedBytes` is the form of a given length. `negateBytes` is the usual way
to change the sign in place: complement all bytes, then add one from the last byte on until no
carry is left.

`wordValue_negateBytes` says what the pass over the bytes computes, and `signedValue_negateBytes`
that it changes the sign of every number but the smallest.
-/

set_option autoImplicit false

namespace OpenCryptoki.Lib

open List

/-! ### The sign bit -/

/-- The first byte has its highest bit set. -/
def signBit : List UInt8 → Bool
  | []     => false
  | b :: _ => b &&& 0x80 != 0

/-- The number that the bytes are in two's complement form. -/
def signedValue (bs : List UInt8) : Int :=
  if signBit bs then (wordValue .big bs : Int) - 256 ^ bs.length else wordValue .big bs

/-- The first byte of a big-endian word counts most. -/
theorem wordValue_big_cons (b : UInt8) (bs : List UInt8) :
    wordValue .big (b :: bs) = wordValue .big bs + 256 ^ bs.length * b.toNat := by
  show leValue (b :: bs).reverse = leValue bs.reverse + 256 ^ bs.length * b.toNat
  rw [reverse_cons, leValue_append, length_reverse]
  show leValue bs.reverse + 256 ^ bs.length * (b.toNat + 256 * 0) = _
  rw [mul_zero, add_zero]

/-- The test of the sign bit. -/
private theorem highBit_iff (b : UInt8) : (b &&& 0x80 != 0) = true ↔ 128 ≤ b.toNat := by
  have hall : ∀ v : BitVec 8, (UInt8.ofBitVec v &&& 0x80 != 0) = true ↔ 128 ≤ v.toNat := by
    decide +kernel
  exact hall b.toBitVec

variable (bs : List UInt8)

/-- The sign bit is set in the upper half of the values. -/
theorem signBit_iff : signBit bs = true ↔ 256 ^ bs.length ≤ 2 * wordValue .big bs := by
  cases bs with
  | nil => simp [signBit, wordValue, leValue]
  | cons b bs =>
    have hlow : wordValue .big bs < 256 ^ bs.length := wordValue_lt .big bs
    rw [signBit, highBit_iff, wordValue_big_cons, length_cons, pow_succ]
    generalize 256 ^ bs.length = k at *
    constructor
    · intro hb
      have hk : k * 128 ≤ k * b.toNat := Nat.mul_le_mul_left k hb
      omega
    · intro hle
      by_contra hb
      have hk : k * b.toNat ≤ k * 127 := Nat.mul_le_mul_left k (by omega)
      omega

/-- The bytes of a number in the lower half are its two's complement form. -/
theorem signedValue_wordBytes_iff {n v : Nat} (h : v < 256 ^ n) :
    signedValue (wordBytes .big n v) = v ↔ 2 * v < 256 ^ n := by
  have hsign := signBit_iff (wordBytes .big n v)
  rw [wordValue_wordBytes_of_lt h, length_wordBytes] at hsign
  have hcast : ((256 ^ n : Nat) : Int) = (256 : Int) ^ n := Int.natCast_pow 256 n
  rw [signedValue, wordValue_wordBytes_of_lt h, length_wordBytes, ← hcast]
  split
  · next hs =>
    have hle := hsign.mp hs
    omega
  · next hs =>
    have hlt : ¬ 256 ^ n ≤ 2 * v := fun hle => hs (hsign.mpr hle)
    omega

/-- The two's complement form of a number in `n` bytes. -/
def signedBytes (n : Nat) (v : Int) : List UInt8 := wordBytes .big n (v % 256 ^ n).toNat

/-- A number is written with the number of bytes that is asked for. -/
@[simp] theorem length_signedBytes (n : Nat) (v : Int) : (signedBytes n v).length = n :=
  length_wordBytes .big n _

/-- The length and the value determine the bytes. -/
theorem eq_signedBytes {bs : List UInt8} {v : Int} (h : signedValue bs = v) :
    bs = signedBytes bs.length v := by
  have hlt : wordValue .big bs < 256 ^ bs.length := wordValue_lt .big bs
  have hcast : ((256 ^ bs.length : Nat) : Int) = (256 : Int) ^ bs.length :=
    Int.natCast_pow 256 bs.length
  have hmod : v % 256 ^ bs.length = wordValue .big bs := by
    rw [← h, signedValue]
    split
    · rw [Int.sub_emod_right, ← hcast]
      exact Int.emod_eq_of_lt (Int.natCast_nonneg _) (Int.ofNat_lt.mpr hlt)
    · rw [← hcast]
      exact Int.emod_eq_of_lt (Int.natCast_nonneg _) (Int.ofNat_lt.mpr hlt)
  rw [signedBytes, hmod, Int.toNat_natCast, wordBytes_wordValue]

/-! ### Changing the sign -/

/-- Add one to a number with the least significant byte first, as long as there is a carry. -/
def increment : List UInt8 → List UInt8
  | []      => []
  | b :: bs => if b + 1 = 0 then 0 :: increment bs else (b + 1) :: bs

/-- Complement every byte, then add one from the last byte on. -/
def negateBytes (bs : List UInt8) : List UInt8 :=
  (increment (bs.map (~~~ ·)).reverse).reverse

/-- An increment keeps the length. -/
@[simp] theorem length_increment : (increment bs).length = bs.length := by
  induction bs with
  | nil => rfl
  | cons b bs ih =>
    rw [increment]
    split
    · rw [length_cons, ih, length_cons]
    · rfl

/-- Negation keeps the length. -/
@[simp] theorem length_negateBytes : (negateBytes bs).length = bs.length := by
  simp [negateBytes]

/-- An increment adds one and drops the carry. -/
theorem leValue_increment : leValue (increment bs) = (leValue bs + 1) % 256 ^ bs.length := by
  induction bs with
  | nil => simp [increment, leValue]
  | cons b bs ih =>
    have hb : b.toNat < 256 := b.toNat_lt
    have hlt := leValue_lt bs
    have hnext : (b + 1).toNat = (b.toNat + 1) % 256 := by
      rw [UInt8.toNat_add]
      rfl
    have hzero : b + 1 = 0 ↔ b.toNat = 255 := by
      rw [← UInt8.toNat_inj, hnext]
      show (b.toNat + 1) % 256 = 0 ↔ _
      omega
    rw [increment, length_cons, pow_succ, mul_comm]
    split
    · next h =>
      -- The carry goes on: the low digit of the sum is zero.
      have hsum : leValue (b :: bs) + 1 = 256 * (leValue bs + 1) := by
        rw [leValue, hzero.mp h]
        omega
      rw [leValue, ih, hsum, Nat.mul_mod_mul_left]
      show 0 + _ = _
      rw [zero_add]
    · next h =>
      have hne : b.toNat ≠ 255 := fun heq => h (hzero.mpr heq)
      have hmod : (b.toNat + 1) % 256 = b.toNat + 1 := Nat.mod_eq_of_lt (by omega)
      rw [leValue, leValue, hnext, hmod, Nat.mod_eq_of_lt (by omega)]
      omega

/-- A number and its complement fill all bits. -/
theorem leValue_complement : leValue (bs.map (~~~ ·)) + leValue bs + 1 = 256 ^ bs.length := by
  induction bs with
  | nil => rfl
  | cons b bs ih =>
    have hall : ∀ v : BitVec 8, (~~~ UInt8.ofBitVec v).toNat + v.toNat = 255 := by decide +kernel
    have hnot : (~~~ b).toNat + b.toNat = 255 := hall b.toBitVec
    rw [map_cons, leValue, leValue, length_cons, pow_succ]
    omega

/-- What the pass over the bytes computes: the difference to the next power. -/
theorem wordValue_negateBytes :
    wordValue .big (negateBytes bs) = (256 ^ bs.length - wordValue .big bs) % 256 ^ bs.length := by
  have hcompl := leValue_complement bs.reverse
  rw [length_reverse, map_reverse] at hcompl
  show leValue (increment (bs.map (~~~ ·)).reverse).reverse.reverse
    = (256 ^ bs.length - leValue bs.reverse) % 256 ^ bs.length
  rw [reverse_reverse, leValue_increment, length_reverse, length_map]
  congr 1
  omega

/-- Negation of a number that is not zero. -/
theorem wordValue_negateBytes_of_pos {bs : List UInt8} (h : 0 < wordValue .big bs) :
    wordValue .big (negateBytes bs) = 256 ^ bs.length - wordValue .big bs := by
  have hlt : wordValue .big bs < 256 ^ bs.length := wordValue_lt .big bs
  rw [wordValue_negateBytes, Nat.mod_eq_of_lt (by omega)]

/-- The two's complement form of a negative number is that of its amount, with the sign
changed. -/
theorem signedValue_negateBytes {bs : List UInt8} (hpos : 0 < wordValue .big bs)
    (hhalf : 2 * wordValue .big bs ≤ 256 ^ bs.length) :
    signedValue (negateBytes bs) = -(wordValue .big bs : Int) := by
  have hval := wordValue_negateBytes_of_pos hpos
  have hsign : signBit (negateBytes bs) = true := by
    rw [signBit_iff, length_negateBytes, hval]
    omega
  have hcast : ((256 ^ bs.length : Nat) : Int) = (256 : Int) ^ bs.length :=
    Int.natCast_pow 256 bs.length
  rw [signedValue, if_pos hsign, hval, length_negateBytes, ← hcast]
  omega

end OpenCryptoki.Lib
