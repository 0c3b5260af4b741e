import Mathlib.Algebra.Order.Ring.Nat
import Mathlib.Data.List.Basic

/-!
# `OpenCryptoki.Lib.BlockFold`: functions that are iterated over the blocks of a message

A block cipher in a chaining mode, a MAC and a hash run a step function over the blocks of a
message. `foldBlocks n step s xs` is the state after all blocks of `n` elements of `xs`.

An implementation gets the message in pieces. It keeps the elements after the last full
block for the next piece. `whole n xs` and `rest n xs` are the two parts of what it has got
so far. A new piece `ys` only concerns the kept elements: `whole n (xs ++ ys)` is
`whole n xs` and then `whole n (rest n xs ++ ys)`, and what is kept is
`rest n (rest n xs ++ ys)` (`whole_append`, `rest_append`). So the state does not depend on
how the message is cut (`foldBlocks_whole_append`).

`pad n z xs` fills the last block with `z`.
-/

set_option autoImplicit false

namespace OpenCryptoki.Lib

open List

variable {α S : Type} {n : Nat}

/-- The state after the first `k` blocks. -/
def foldChunks (n : Nat) (step : S → List α → S) : Nat → S → List α → S
  | 0, s, _      => s
  | k + 1, s, xs => foldChunks n step k (step s (xs.take n)) (xs.drop n)

/-- The state after every full block of the list. -/
def foldBlocks (n : Nat) (step : S → List α → S) (s : S) (xs : List α) : S :=
  foldChunks n step (xs.length / n) s xs

variable {step : S → List α → S} {s : S} {xs ys : List α} {z : α}

/-- Chunks of a first part are folded before the others. -/
theorem foldChunks_append {k j : Nat} (h : xs.length = k * n) :
    foldChunks n step (k + j) s (xs ++ ys) = foldChunks n step j (foldChunks n step k s xs) ys := by
  induction k generalizing s xs with
  | zero =>
    rw [zero_mul, length_eq_zero_iff] at h
    rw [h, zero_add, nil_append]
    rfl
  | succ k ih =>
    have hn : n ≤ xs.length := by
      rw [h, add_mul, one_mul]
      exact le_add_self
    rw [add_right_comm]
    show foldChunks n step (k + j) (step s ((xs ++ ys).take n)) ((xs ++ ys).drop n) = _
    rw [take_append_of_le_length hn, drop_append_of_le_length hn]
    refine ih ?_
    rw [length_drop, h, add_mul, one_mul, Nat.add_sub_cancel]

/-- Blocks in front of a list are processed first. -/
theorem foldBlocks_append (hn : 0 < n) (h : n ∣ xs.length) :
    foldBlocks n step s (xs ++ ys) = foldBlocks n step (foldBlocks n step s xs) ys := by
  obtain ⟨k, hk⟩ := h
  have hsum : (xs ++ ys).length / n = k + ys.length / n := by
    rw [length_append, hk, Nat.mul_add_div hn]
  have hfirst : xs.length / n = k := by rw [hk, Nat.mul_div_cancel_left k hn]
  rw [foldBlocks, hsum, foldChunks_append (by rw [hk, mul_comm]), foldBlocks, foldBlocks,
    hfirst]

/-- Without data the state is kept. -/
@[simp] theorem foldBlocks_nil (step : S → List α → S) (s : S) : foldBlocks n step s [] = s := by
  rw [foldBlocks, length_nil, Nat.zero_div]
  rfl

/-- One block is one step. -/
theorem foldBlocks_block (hn : 0 < n) (h : xs.length = n) : foldBlocks n step s xs = step s xs := by
  rw [foldBlocks, h, Nat.div_self hn]
  show step s (xs.take n) = step s xs
  rw [take_of_length_le h.le]

/-! ### A message that arrives in pieces -/

/-- The full blocks of a list. -/
def whole (n : Nat) (xs : List α) : List α := xs.take (xs.length - xs.length % n)

/-- What is left after the full blocks. -/
def rest (n : Nat) (xs : List α) : List α := xs.drop (xs.length - xs.length % n)

section
variable (n : Nat) (xs : List α)

/-- The whole blocks and the rest make up the data. -/
theorem whole_append_rest : whole n xs ++ rest n xs = xs :=
  take_append_drop _ _

/-- The whole blocks are all but the remainder. -/
@[simp] theorem length_whole : (whole n xs).length = xs.length - xs.length % n := by
  rw [whole, length_take]
  exact min_eq_left (Nat.sub_le _ _)

/-- The rest is as long as the remainder. -/
@[simp] theorem length_rest : (rest n xs).length = xs.length % n := by
  have hle := Nat.mod_le xs.length n
  rw [rest, length_drop]
  omega

/-- The whole blocks have a multiple of the block size. -/
theorem dvd_length_whole : n ∣ (whole n xs).length := by
  rw [length_whole]
  exact Nat.dvd_sub_mod _

end

/-- Data of whole blocks is kept as it is. -/
theorem whole_of_dvd (h : n ∣ xs.length) : whole n xs = xs := by
  rw [whole, Nat.mod_eq_zero_of_dvd h, Nat.sub_zero, take_length]

/-- Data shorter than a block has no whole block. -/
theorem whole_of_lt (h : xs.length < n) : whole n xs = [] := by
  rw [whole, Nat.mod_eq_of_lt h, Nat.sub_self, take_zero]

/-- Data shorter than a block is its own rest. -/
theorem rest_of_lt (h : xs.length < n) : rest n xs = xs := by
  rw [rest, Nat.mod_eq_of_lt h, Nat.sub_self, drop_zero]

/-- The kept bytes go into the first block that is completed. -/
private theorem kept_lt_blocks (hxs : xs.length < n) (hblock : n ≤ (xs ++ ys).length) :
    xs.length ≤ (xs ++ ys).length - (xs ++ ys).length % n := by
  have hdiv := Nat.div_add_mod (xs ++ ys).length n
  have hone : 1 ≤ (xs ++ ys).length / n := (Nat.one_le_div_iff (by omega)).mpr hblock
  have hmul : n * 1 ≤ n * ((xs ++ ys).length / n) := Nat.mul_le_mul_left n hone
  omega

/-- Kept elements `xs` and a piece `ys` that completes a block: all of `xs` is in the full
blocks. -/
theorem whole_of_kept (hxs : xs.length < n) (hblock : n ≤ (xs ++ ys).length) :
    whole n (xs ++ ys) = xs ++ ys.take ((xs ++ ys).length - (xs ++ ys).length % n - xs.length) := by
  rw [whole, take_append, take_of_length_le (kept_lt_blocks hxs hblock)]

/-- What is left is then the end of `ys`. -/
theorem rest_of_kept (hxs : xs.length < n) (hblock : n ≤ (xs ++ ys).length) :
    rest n (xs ++ ys) = ys.drop (ys.length - (xs ++ ys).length % n) := by
  have hle := kept_lt_blocks hxs hblock
  rw [rest, drop_append, drop_of_length_le hle, nil_append]
  congr 1
  rw [length_append] at hle ⊢
  omega

/-- Whole blocks in front count with their full length. -/
private theorem blocks_append_sub_mod (h : n ∣ xs.length) :
    (xs ++ ys).length - (xs ++ ys).length % n = xs.length + (ys.length - ys.length % n) := by
  obtain ⟨k, hk⟩ := h
  rw [length_append, hk, Nat.mul_add_mod]
  exact Nat.add_sub_assoc (Nat.mod_le _ _) _

/-- The full blocks after one more piece. -/
theorem whole_append (n : Nat) (xs ys : List α) :
    whole n (xs ++ ys) = whole n xs ++ whole n (rest n xs ++ ys) := by
  conv_lhs => rw [← whole_append_rest n xs, append_assoc]
  rw [whole, blocks_append_sub_mod (dvd_length_whole n xs), take_length_add_append]
  rfl

/-- What is kept after one more piece. -/
theorem rest_append (n : Nat) (xs ys : List α) : rest n (xs ++ ys) = rest n (rest n xs ++ ys) := by
  conv_lhs => rw [← whole_append_rest n xs, append_assoc]
  rw [rest, blocks_append_sub_mod (dvd_length_whole n xs), drop_length_add_append]
  rfl

/-- The state after one more piece. -/
theorem foldBlocks_whole_append (hn : 0 < n) (step : S → List α → S) (s : S)
    (xs ys : List α) :
    foldBlocks n step s (whole n (xs ++ ys))
      = foldBlocks n step (foldBlocks n step s (whole n xs)) (whole n (rest n xs ++ ys)) := by
  rw [whole_append, foldBlocks_append hn (dvd_length_whole n xs)]

/-! ### Padding -/

/-- The list with its last block filled up with `z`. -/
def pad (n : Nat) (z : α) (xs : List α) : List α :=
  xs ++ List.replicate ((n - xs.length % n) % n) z

/-- Data of whole blocks is not padded. -/
theorem pad_of_dvd (h : n ∣ xs.length) : pad n z xs = xs := by
  rw [pad, Nat.mod_eq_zero_of_dvd h, Nat.sub_zero, Nat.mod_self, replicate_zero, append_nil]

/-- The last block of a padded list is what is left after the full blocks, filled up. -/
theorem pad_of_not_dvd (hn : 0 < n) (h : ¬ n ∣ xs.length) :
    pad n z xs = whole n xs ++ (rest n xs ++ replicate (n - xs.length % n) z) := by
  rw [← append_assoc, whole_append_rest, pad, Nat.mod_eq_of_lt (by omega)]

/-- A padded list is a number of full blocks. -/
theorem dvd_length_pad (hn : 0 < n) (z : α) (xs : List α) : n ∣ (pad n z xs).length := by
  by_cases h : n ∣ xs.length
  · rwa [pad_of_dvd h]
  · have hlt := Nat.mod_lt xs.length hn
    rw [pad_of_not_dvd hn h, length_append]
    refine Nat.dvd_add (dvd_length_whole n xs) ⟨1, ?_⟩
    rw [length_append, length_rest, length_replicate]
    omega

/-- Padding does not shorten. -/
theorem length_le_length_pad (n : Nat) (z : α) (xs : List α) : xs.length ≤ (pad n z xs).length := by
  rw [pad, length_append]
  exact le_self_add

/-- Less than a block is added. -/
theorem length_pad_lt (hn : 0 < n) (z : α) (xs : List α) : (pad n z xs).length < xs.length + n := by
  rw [pad, length_append, length_replicate]
  exact Nat.add_lt_add_left (Nat.mod_lt _ hn) _

/-- The state after a padded list whose last block is not full. -/
theorem foldBlocks_pad_of_not_dvd (hn : 0 < n) (h : ¬ n ∣ xs.length) :
    foldBlocks n step s (pad n z xs) = step (foldBlocks n step s (whole n xs))
          (rest n xs ++ replicate (n - xs.length % n) z) := by
  have hlt := Nat.mod_lt xs.length hn
  have hlen : (rest n xs ++ replicate (n - xs.length % n) z).length = n := by
    rw [length_append, length_rest, length_replicate]
    omega
  rw [pad_of_not_dvd hn h, foldBlocks_append hn (dvd_length_whole n xs), foldBlocks_block hn hlen]

end OpenCryptoki.Lib
