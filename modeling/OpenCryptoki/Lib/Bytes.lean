import Mathlib.Algebra.Order.Ring.Nat
import Mathlib.Data.List.GetD

/-!
# `OpenCryptoki.Lib.Bytes`: words as bytes, and memory buffers

`leBytes n v` is the number `v` in `n` bytes, least significant byte first, and
`leValue` reads such bytes back. Code that writes a machine word and code that reads it
are both measured against these two.

`Buf` is a memory buffer seen through a pointer: the byte at each offset. `Buf.write`
is what `memcpy` to an offset does, and `Buf.read` is the list of bytes that a reader of
a range gets. A buffer that is filled piece by piece is described by
`Buf.read_write_append`: the bytes read so far grow by the piece that was written.
-/

set_option autoImplicit false

namespace OpenCryptoki.Lib

open List

/-! ### Words -/

/-- The `n` low bytes of `v`, least significant byte first. -/
def leBytes : Nat → Nat → List UInt8
  | 0,     _ => []
  | n + 1, v => UInt8.ofNat v :: leBytes n (v / 256)

/-- The number that the bytes spell, least significant byte first. -/
def leValue : List UInt8 → Nat
  | []      => 0
  | b :: bs => b.toNat + 256 * leValue bs

/-- A number is written with the number of bytes that is asked for. -/
@[simp] theorem length_leBytes (n v : Nat) : (leBytes n v).length = n := by
  induction n generalizing v with
  | zero => rfl
  | succ n ih => rw [leBytes, length_cons, ih]

/-- The value fits in its bytes. -/
theorem leValue_lt (bs : List UInt8) : leValue bs < 256 ^ bs.length := by
  induction bs with
  | nil => simp [leValue]
  | cons b bs ih =>
    have hb : b.toNat < 256 := b.toNat_lt
    rw [leValue, length_cons, pow_succ]
    omega

/-- Reading back `n` bytes of `v` loses what does not fit into them. -/
theorem leValue_leBytes (n v : Nat) : leValue (leBytes n v) = v % 256 ^ n := by
  induction n generalizing v with
  | zero => simp [leBytes, leValue, Nat.mod_one]
  | succ n ih =>
    have hdigit : (UInt8.ofNat v).toNat = v % 256 := rfl
    rw [leBytes, leValue, ih, hdigit, pow_succ, mul_comm (256 ^ n) 256, Nat.mod_mul]

/-- A number that fits comes back. -/
theorem leValue_leBytes_of_lt {n v : Nat} (h : v < 256 ^ n) : leValue (leBytes n v) = v := by
  rw [leValue_leBytes, Nat.mod_eq_of_lt h]

/-- The bytes of a value that came from bytes are those bytes. -/
theorem leBytes_leValue (bs : List UInt8) : leBytes bs.length (leValue bs) = bs := by
  induction bs with
  | nil => rfl
  | cons b bs ih =>
    have hb : b.toNat < 256 := b.toNat_lt
    have hdiv : (b.toNat + 256 * leValue bs) / 256 = leValue bs := by omega
    have hlow : UInt8.ofNat (b.toNat + 256 * leValue bs) = b := by
      apply UInt8.toNat_inj.mp
      show (b.toNat + 256 * leValue bs) % 256 = b.toNat
      omega
    rw [leValue, length_cons, leBytes, hdiv, hlow, ih]

/-- The bytes behind count above those in front. -/
theorem leValue_append (xs ys : List UInt8) :
    leValue (xs ++ ys) = leValue xs + 256 ^ xs.length * leValue ys := by
  induction xs with
  | nil => simp [leValue]
  | cons b xs ih =>
    rw [cons_append, leValue, leValue, ih, length_cons, pow_succ, mul_add,
      add_assoc, ← mul_assoc, mul_comm (256 ^ xs.length) 256]

/-- The byte order of a machine. -/
inductive ByteOrder
  | little
  | big
  deriving DecidableEq

/-- The `n` low bytes of `v` as the machine stores them. -/
def wordBytes (o : ByteOrder) (n v : Nat) : List UInt8 :=
  match o with
  | .little => leBytes n v
  | .big    => (leBytes n v).reverse

/-- The number that bytes in memory spell. -/
def wordValue (o : ByteOrder) (bs : List UInt8) : Nat :=
  match o with
  | .little => leValue bs
  | .big    => leValue bs.reverse

/-- A word is written with the number of bytes that is asked for. -/
@[simp] theorem length_wordBytes (o : ByteOrder) (n v : Nat) : (wordBytes o n v).length = n := by
  cases o <;> simp [wordBytes]

/-- The value of a word fits in its bytes. -/
theorem wordValue_lt (o : ByteOrder) (bs : List UInt8) : wordValue o bs < 256 ^ bs.length := by
  cases o with
  | little => exact leValue_lt bs
  | big =>
    have hlt := leValue_lt bs.reverse
    rwa [length_reverse] at hlt

/-- Reading back `n` bytes of `v` loses what does not fit into them. -/
theorem wordValue_wordBytes (o : ByteOrder) (n v : Nat) :
    wordValue o (wordBytes o n v) = v % 256 ^ n := by
  cases o with
  | little => exact leValue_leBytes n v
  | big =>
    rw [wordValue, wordBytes, reverse_reverse]
    exact leValue_leBytes n v

/-- A number that fits comes back, in either byte order. -/
theorem wordValue_wordBytes_of_lt {o : ByteOrder} {n v : Nat} (h : v < 256 ^ n) :
    wordValue o (wordBytes o n v) = v := by
  cases o with
  | little => exact leValue_leBytes_of_lt h
  | big =>
    rw [wordValue, wordBytes, reverse_reverse]
    exact leValue_leBytes_of_lt h

/-- The bytes in front count for more. -/
theorem wordValue_big_append (xs ys : List UInt8) :
    wordValue .big (xs ++ ys) = wordValue .big xs * 256 ^ ys.length + wordValue .big ys := by
  show leValue (xs ++ ys).reverse = leValue xs.reverse * 256 ^ ys.length + leValue ys.reverse
  rw [reverse_append, leValue_append, length_reverse, mul_comm, add_comm]

/-- Bytes come back from their value. -/
theorem wordBytes_wordValue (o : ByteOrder) (bs : List UInt8) :
    wordBytes o bs.length (wordValue o bs) = bs := by
  cases o with
  | little => exact leBytes_leValue bs
  | big =>
    have hrev := leBytes_leValue bs.reverse
    rw [length_reverse] at hrev
    rw [wordBytes, wordValue, hrev, reverse_reverse]

/-- The part of a list that a copy has moved, after one more chunk of at most `n`. -/
theorem take_add_length_chunk {α : Type} (xs : List α) (k n : Nat) :
    xs.take (k + ((xs.drop k).take n).length) = xs.take k ++ (xs.drop k).take n := by
  rw [take_add, append_cancel_left_eq, take_eq_take_iff, length_take]
  omega

/-! ### Buffers -/

/-- A memory buffer: the byte at each offset. -/
abbrev Buf := Nat → UInt8

namespace Buf

/-- `memcpy` of `bs` to offset `off`. -/
def write (b : Buf) (off : Nat) (bs : List UInt8) : Buf :=
  fun j => if off ≤ j ∧ j < off + bs.length then bs.getD (j - off) 0 else b j

/-- The `n` bytes from offset `off` on. -/
def read (b : Buf) (off n : Nat) : List UInt8 :=
  (List.range n).map fun j => b (off + j)

variable (b : Buf)

/-- Writing nothing changes nothing. -/
@[simp] theorem write_nil (off : Nat) : b.write off [] = b := by
  funext i
  rw [write, if_neg]
  rw [length_nil]
  omega

/-- A read returns as many bytes as it is asked for. -/
@[simp] theorem length_read (off n : Nat) : (b.read off n).length = n := by
  simp [read]

/-- A read of no bytes. -/
@[simp] theorem read_zero (off : Nat) : b.read off 0 = [] := rfl

/-- The bytes of a read are those of the buffer from `off` on. -/
theorem getElem_read {b : Buf} {off n j : Nat} (h : j < (b.read off n).length) :
    (b.read off n)[j] = b (off + j) := by
  simp [read]

/-- The first bytes of a read are a shorter read. -/
theorem take_read (off n k : Nat) (h : k ≤ n) : (b.read off n).take k = b.read off k := by
  apply ext_getElem
  · simp [h]
  · intro j h₁ h₂
    rw [getElem_take, getElem_read, getElem_read]

/-- A read can be done in two parts. -/
theorem read_add (off n m : Nat) : b.read off (n + m) = b.read off n ++ b.read (off + n) m := by
  simp only [read, range_add, map_append, map_map, add_assoc]
  rfl

/-- A read that ends before the written range sees the old bytes. -/
theorem read_write_before (off n k : Nat) (bs : List UInt8) (h : off + n ≤ k) :
    (b.write k bs).read off n = b.read off n := by
  apply map_congr_left
  intro j hj
  have hj' : j < n := mem_range.mp hj
  exact if_neg fun hc => by omega

/-- A read that starts behind the written range sees the old bytes. -/
theorem read_write_after (off n k : Nat) (bs : List UInt8) (h : k + bs.length ≤ off) :
    (b.write k bs).read off n = b.read off n := by
  apply map_congr_left
  intro j _
  exact if_neg fun hc => by omega

/-- A read inside the written range sees that part of the written bytes. -/
theorem read_write_inside (k off n : Nat) (bs : List UInt8) (h : off + n ≤ bs.length) :
    (b.write k bs).read (k + off) n = (bs.drop off).take n := by
  apply ext_getElem
  · simp only [length_read, length_take, length_drop]
    omega
  · intro j h₁ h₂
    have hj : off + j < bs.length := by
      simp only [length_read] at h₁
      omega
    rw [getElem_read, write, if_pos ⟨by omega, by omega⟩, getElem_take, getElem_drop,
      show k + off + j - k = off + j from by omega, getD_eq_getElem _ _ hj]

/-- What has been written can be read back. -/
theorem read_write (k : Nat) (bs : List UInt8) : (b.write k bs).read k bs.length = bs := by
  simpa using read_write_inside b k 0 bs.length bs (by omega)

/-- A write that starts inside a written range, or at its end, is one longer write. -/
theorem write_write (off k : Nat) (xs ys : List UInt8) (h : k ≤ xs.length) :
    (b.write off xs).write (off + k) ys
      = b.write off (xs.take k ++ (ys ++ xs.drop (k + ys.length))) := by
  have htake : (xs.take k).length = k := length_take_of_le h
  funext j
  simp only [write, length_append, htake, length_drop]
  -- Before `off`, in front of `ys`, inside `ys`, behind `ys` but inside `xs`, behind both.
  by_cases hbefore : j < off
  · rw [if_neg (by omega), if_neg (by omega), if_neg (by omega)]
  by_cases hfront : j < off + k
  · rw [if_neg (by omega), if_pos (by omega), if_pos (by omega), getD_append _ _ _ _ (by omega),
      getD_eq_getElem _ _ (by omega), getD_eq_getElem _ _ (by omega), getElem_take]
  by_cases hinside : j < off + k + ys.length
  · rw [if_pos (by omega), if_pos (by omega), getD_append_right _ _ _ _ (by omega), htake,
      getD_append _ _ _ _ (by omega), Nat.sub_sub]
  by_cases hbehind : j < off + xs.length
  · rw [if_neg (by omega), if_pos (by omega), if_pos (by omega),
      getD_append_right _ _ _ _ (by omega), htake,
      getD_append_right _ _ _ _ (by omega), getD_eq_getElem _ _ (by omega),
      getD_eq_getElem _ _ (by rw [length_drop]; omega), getElem_drop]
    congr 1
    omega
  · rw [if_neg (by omega), if_neg (by omega), if_neg (by omega)]

section
variable (off : Nat) (xs ys : List UInt8)

/-- A write over all of a range that has been written. -/
theorem write_write_cover (h : xs.length ≤ ys.length) :
    (b.write off xs).write off ys = b.write off ys := by
  funext j
  simp only [write]
  split
  · rfl
  · exact if_neg (by omega)

/-- A write that ends where another one starts. -/
theorem write_write_before :
    (b.write (off + xs.length) ys).write off xs = b.write off (xs ++ ys) := by
  funext j
  simp only [write, length_append]
  by_cases hbefore : j < off
  · rw [if_neg (by omega), if_neg (by omega), if_neg (by omega)]
  by_cases hinside : j < off + xs.length
  · rw [if_pos (by omega), if_pos (by omega), getD_append _ _ _ _ (by omega)]
  by_cases hbehind : j < off + xs.length + ys.length
  · rw [if_neg (by omega), if_pos (by omega), if_pos (by omega),
      getD_append_right _ _ _ _ (by omega), Nat.sub_sub]
  · rw [if_neg (by omega), if_neg (by omega), if_neg (by omega)]

/-- A write that continues another one. -/
theorem write_write_append :
    (b.write off xs).write (off + xs.length) ys = b.write off (xs ++ ys) := by
  rw [write_write _ _ _ _ _ le_rfl, take_length,
    drop_of_length_le (le_self_add), append_nil]

end

/-- A write over the middle of a written range. -/
theorem write_write_middle (off : Nat) (xs ys zs ys' : List UInt8) (h : ys'.length = ys.length) :
    (b.write off (xs ++ (ys ++ zs))).write (off + xs.length) ys'
      = b.write off (xs ++ (ys' ++ zs)) := by
  rw [write_write _ _ _ _ _ (by rw [length_append]; exact le_self_add),
    take_left, drop_length_add_append, h, drop_left]

/-- A read from the middle of a written range. -/
theorem read_write_middle (off : Nat) (xs ys zs : List UInt8) :
    (b.write off (xs ++ (ys ++ zs))).read (off + xs.length) ys.length = ys := by
  rw [read_write_inside _ _ _ _ _ (by simp only [length_append]; omega), drop_left, take_left]

/-- Filling a buffer piece by piece: the bytes up to the end of the piece are those
before it, then the piece. -/
theorem read_write_append (k : Nat) (bs : List UInt8) :
    (b.write k bs).read 0 (k + bs.length) = b.read 0 k ++ bs := by
  rw [read_add, zero_add, read_write, read_write_before _ _ _ _ _ (by omega)]

end Buf

end OpenCryptoki.Lib
