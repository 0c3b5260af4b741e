import Mathlib.Algebra.Order.Ring.Nat
import Mathlib.Data.List.Basic

/-!
# `OpenCryptoki.Lib.Region`: memory of a known size

A region is a piece of memory that has been allocated: a list. `readAt` and `writeAt` access a
range of it. They refuse a range that is not inside the region, so a function that is written
with them and gives a result has only accessed its regions. An empty range accesses nothing,
wherever it is.

A proof runs such a function by writing a region as the pieces that the function works on:
`readAt_middle` and `writeAt_middle` access one piece.
-/

set_option autoImplicit false

namespace OpenCryptoki.Lib

open List

variable {α : Type}

/-- The `n` elements from offset `off` on. -/
def readAt (b : List α) (off n : Nat) : Option (List α) :=
  if n = 0 ∨ off + n ≤ b.length then some ((b.drop off).take n) else none

/-- The region after `xs` has been written to offset `off`. -/
def writeAt (b : List α) (off : Nat) (xs : List α) : Option (List α) :=
  if xs.length = 0 ∨ off + xs.length ≤ b.length then
    some (b.take off ++ (xs ++ b.drop (off + xs.length)))
  else none

section
variable {b xs ys zs : List α} {off n : Nat}

/-- A read inside the object. -/
theorem readAt_eq_some (h : off + n ≤ b.length) : readAt b off n = some ((b.drop off).take n) :=
  if_pos (.inr h)

/-- A read of one piece of a region. -/
theorem readAt_middle (xs ys zs : List α) :
    readAt (xs ++ (ys ++ zs)) xs.length ys.length = some ys := by
  rw [readAt_eq_some (by simp only [length_append]; omega), drop_left, take_left]

/-- A write over one piece of a region. -/
theorem writeAt_middle {ys' : List α} (xs ys zs : List α) (h : ys'.length = ys.length) :
    writeAt (xs ++ (ys ++ zs)) xs.length ys' = some (xs ++ (ys' ++ zs)) := by
  rw [writeAt, if_pos (.inr (by simp only [length_append]; omega)), take_left,
    drop_length_add_append, h, drop_left]

/-- `readAt_middle` for an offset and a length that are known in another form. -/
theorem readAt_of_eq (xs ys zs : List α) (hb : b = xs ++ (ys ++ zs)) (hoff : off = xs.length)
    (hn : n = ys.length) : readAt b off n = some ys := by
  rw [hb, hoff, hn, readAt_middle]

/-- `writeAt_middle` for an offset that is known in another form. -/
theorem writeAt_of_eq {ys' : List α} (xs ys zs : List α) (hb : b = xs ++ (ys ++ zs))
    (hoff : off = xs.length) (h : ys'.length = ys.length) :
    writeAt b off ys' = some (xs ++ (ys' ++ zs)) := by
  rw [hb, hoff, writeAt_middle xs ys zs h]

/-- A read returns as many elements as it is asked for. -/
theorem length_of_readAt (h : readAt b off n = some xs) : xs.length = n := by
  rw [readAt] at h
  split at h
  · next hrange =>
    rw [← Option.some.inj h, length_take, length_drop]
    omega
  · cases h

/-- A write keeps the length of the object. -/
theorem length_of_writeAt (h : writeAt b off xs = some ys) : ys.length = b.length := by
  rw [writeAt] at h
  split at h
  · next hrange =>
    rw [← Option.some.inj h]
    simp only [length_append, length_take, length_drop]
    omega
  · cases h

/-- A write that succeeds was inside. -/
theorem writeAt_le (h : writeAt b off xs = some ys) :
    xs.length = 0 ∨ off + xs.length ≤ b.length := by
  rw [writeAt] at h
  split at h
  · assumption
  · cases h

/-- A read that succeeds was inside. -/
theorem readAt_le (h : readAt b off n = some xs) : n = 0 ∨ off + n ≤ b.length := by
  rw [readAt] at h
  split at h
  · assumption
  · cases h

end

/-! ### Pieces of a region -/

/-- The region has `xs` at offset `off`. -/
def At (b : List α) (off : Nat) (xs : List α) : Prop :=
  ∃ front back, b = front ++ (xs ++ back) ∧ front.length = off

/-- The front of a buffer. -/
theorem at_start (xs ys : List α) : At (xs ++ ys) 0 xs := ⟨[], ys, rfl, rfl⟩

/-- A buffer at its own start. -/
theorem at_self (b : List α) : At b 0 b := ⟨[], [], by simp, rfl⟩

namespace At

variable {b xs ys : List α} {x : α} {off : Nat}

/-- The first part stands at the same place. -/
theorem left (h : At b off (xs ++ ys)) : At b off xs := by
  obtain ⟨front, back, rfl, hoff⟩ := h
  exact ⟨front, ys ++ back, by rw [append_assoc], hoff⟩

/-- The second part stands behind the first. -/
theorem right (h : At b off (xs ++ ys)) : At b (off + xs.length) ys := by
  obtain ⟨front, back, rfl, rfl⟩ := h
  exact ⟨front ++ xs, back, by simp only [append_assoc], length_append⟩

/-- Two parts that follow each other. -/
theorem append (h : At b off xs) (h' : At b (off + xs.length) ys) : At b off (xs ++ ys) := by
  obtain ⟨front, back, rfl, rfl⟩ := h
  obtain ⟨front', back', heq, hoff⟩ := h'
  have hfront : front ++ xs = front' ∧ back = ys ++ back' :=
    append_inj (by rw [append_assoc, heq]) (by rw [hoff, length_append])
  exact ⟨front, back', by rw [hfront.2, append_assoc], rfl⟩

/-- All but the first element. -/
theorem tail (h : At b off (x :: xs)) : At b (off + 1) xs :=
  right (show At b off ([x] ++ xs) from h)

/-- The element at the place. -/
theorem getElem? (h : At b off (x :: xs)) : b[off]? = some x := by
  obtain ⟨front, back, rfl, rfl⟩ := h
  rw [getElem?_append_right le_rfl, Nat.sub_self]
  rfl

/-- The place is inside the buffer. -/
theorem le_length (h : At b off xs) : off + xs.length ≤ b.length := by
  obtain ⟨front, back, rfl, rfl⟩ := h
  simp only [length_append]
  omega

/-- A read at the place. -/
theorem readAt (h : At b off xs) : readAt b off xs.length = some xs := by
  obtain ⟨front, back, rfl, rfl⟩ := h
  exact readAt_middle front xs back

/-- The place cut out of the buffer. -/
theorem take_drop (h : At b off xs) : (b.drop off).take xs.length = xs := by
  obtain ⟨front, back, rfl, rfl⟩ := h
  rw [drop_left, take_left]

end At

end OpenCryptoki.Lib
