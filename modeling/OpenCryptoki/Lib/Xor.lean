import Mathlib.Algebra.Order.Ring.Nat
import Mathlib.Data.List.Basic

/-!
# `OpenCryptoki.Lib.Xor`: exclusive or of byte strings

A mask is put on a byte string, and taken off, by exclusive or. `xorBytes_xorBytes` says that
the second time undoes the first time. Some encodings clear the top bit of the first byte after
that; `clearTop` does it, and `clearTop_unmask` says what then can be got back.
-/

set_option autoImplicit false

namespace OpenCryptoki.Lib

/-- The exclusive or of two byte strings, byte by byte. -/
def xorBytes (xs ys : List UInt8) : List UInt8 := List.zipWith (· ^^^ ·) xs ys

/-- The shorter list counts. -/
@[simp] theorem length_xorBytes (xs ys : List UInt8) :
    (xorBytes xs ys).length = min xs.length ys.length :=
  List.length_zipWith

/-- The exclusive or of two lists of one length. -/
theorem length_xorBytes_of_eq {xs ys : List UInt8} (h : ys.length = xs.length) :
    (xorBytes xs ys).length = xs.length := by
  rw [length_xorBytes, h, Nat.min_self]

/-- The exclusive or byte by byte. -/
@[simp] theorem xorBytes_cons (x y : UInt8) (xs ys : List UInt8) :
    xorBytes (x :: xs) (y :: ys) = (x ^^^ y) :: xorBytes xs ys := rfl

/-- The exclusive or is commutative. -/
theorem xorBytes_comm (xs ys : List UInt8) : xorBytes xs ys = xorBytes ys xs :=
  List.zipWith_comm_of_comm fun x y => UInt8.xor_comm x y

/-- A mask that is put on twice is gone. -/
theorem xorBytes_xorBytes {xs mask : List UInt8} (h : mask.length = xs.length) :
    xorBytes (xorBytes xs mask) mask = xs := by
  induction xs generalizing mask with
  | nil => rfl
  | cons x xs ih =>
    cases mask with
    | nil => cases h
    | cons m mask =>
      rw [xorBytes_cons, xorBytes_cons, ih (Nat.succ.inj h), UInt8.xor_assoc, UInt8.xor_self,
        UInt8.xor_zero]

/-- Clear the top bit of the first byte. -/
def clearTop (xs : List UInt8) : List UInt8 := xs.modify 0 (· &&& 0x7f)

/-- Clearing the top bit keeps the length. -/
@[simp] theorem length_clearTop (xs : List UInt8) : (clearTop xs).length = xs.length := by
  simp [clearTop]

/-- The top bit is that of the first byte. -/
theorem clearTop_cons (x : UInt8) (xs : List UInt8) : clearTop (x :: xs) = (x &&& 0x7f) :: xs := rfl

/-- The top bit is cleared once. -/
theorem clearTop_clearTop (xs : List UInt8) : clearTop (clearTop xs) = clearTop xs := by
  cases xs with
  | nil => rfl
  | cons x xs => rw [clearTop_cons, clearTop_cons, UInt8.and_assoc, UInt8.and_self]

/-- The top bit of a mask does not count. -/
theorem and_xor_and (x m : UInt8) : ((x &&& 0x7f) ^^^ m) &&& 0x7f = (x ^^^ m) &&& 0x7f := by
  apply UInt8.toBitVec_inj.mp
  apply BitVec.eq_of_getLsbD_eq
  intro i hi
  simp only [UInt8.toBitVec_and, UInt8.toBitVec_xor, BitVec.getLsbD_and, BitVec.getLsbD_xor]
  cases (UInt8.toBitVec 0x7f).getLsbD i <;> simp

/-- A cleared top bit does not come back: masking again gives the string with its top bit
cleared. -/
theorem clearTop_unmask {xs mask : List UInt8} (h : mask.length = xs.length) :
    clearTop (xorBytes (clearTop (xorBytes xs mask)) mask) = clearTop xs := by
  cases xs with
  | nil => rfl
  | cons x xs =>
    cases mask with
    | nil => cases h
    | cons m mask =>
      show ((((x ^^^ m) &&& 0x7f) ^^^ m) &&& 0x7f) :: xorBytes (xorBytes xs mask) mask
        = (x &&& 0x7f) :: xs
      rw [and_xor_and, xorBytes_xorBytes (Nat.succ.inj h), UInt8.xor_assoc, UInt8.xor_self,
        UInt8.xor_zero]

end OpenCryptoki.Lib
