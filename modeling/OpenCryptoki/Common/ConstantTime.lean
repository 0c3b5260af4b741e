import Mathlib.Algebra.Order.Ring.Nat
import Mathlib.Data.BitVec

/-!
# `OpenCryptoki.Common.ConstantTime`: decisions without branches

The model of the functions of `usr/lib/common/constant_time.h` that the RSA encodings use. An
`unsigned int` is a `BitVec 32`. `value_barrier` returns its argument and is left out.

A function that is called with a `size_t` gets its low 32 bits (`toUInt`). An `int` that is
stored in a `size_t` is sign extended (`ofInt`).
-/

set_option autoImplicit false

namespace OpenCryptoki.Common

/-- `unsigned int`. -/
abbrev CUInt := BitVec 32

/-- A `size_t` as an argument of type `int` or `unsigned int`. -/
def toUInt (n : Nat) : CUInt := BitVec.ofNat 32 n

/-- A byte as an argument of type `unsigned int`. -/
def byteToUInt (b : UInt8) : CUInt := b.toBitVec.setWidth 32

/-- An `int` that is stored in a `size_t`. -/
def ofInt (v : CUInt) : Nat := (v.signExtend 64).toNat

def constantTimeMsb (a : CUInt) : CUInt := 0 - (a >>> 31)

def constantTimeLt (a b : CUInt) : CUInt :=
  constantTimeMsb (a ^^^ ((a ^^^ b) ||| ((a - b) ^^^ b)))

def constantTimeGe (a b : CUInt) : CUInt := ~~~ constantTimeLt a b

def constantTimeIsZero (a : CUInt) : CUInt := constantTimeMsb (~~~ a &&& (a - 1))

def constantTimeEq (a b : CUInt) : CUInt := constantTimeIsZero (a ^^^ b)

def constantTimeSelect (mask a b : CUInt) : CUInt := (mask &&& a) ||| (~~~ mask &&& b)

/-- `constant_time_select_8`. The mask is cut to a byte. -/
def constantTimeSelect8 (mask : CUInt) (a b : UInt8) : UInt8 :=
  UInt8.ofBitVec ((constantTimeSelect ((mask.setWidth 8).setWidth 32) (byteToUInt a)
    (byteToUInt b)).setWidth 8)

/-- `constant_time_select_int`. The arguments and the result are an `int`. -/
def constantTimeSelectInt (mask a b : CUInt) : CUInt := constantTimeSelect mask a b

end OpenCryptoki.Common
