import OpenCryptoki.Lib.Checked
import OpenCryptoki.Lib.TwosComplement

/-!
# `OpenCryptoki.Kmip.Bignum`: big integers of the KMIP client

The model of `kmip_decode_bignum`, `kmip_encode_bignum_length` and `kmip_encode_bignum` in
`usr/sbin/p11kmip/kmipclient/utils.c`, and of the padding that their callers add.

A `BIGNUM` is an integer. The functions of OpenSSL on it that are used here (`BN_num_bits` and so
on) look at its amount, and `BN_is_negative` and `BN_set_negative` at its sign. OpenSSL keeps the
number of bits of a `BIGNUM` in an `int`, so the lengths below do not overflow.

A pointer to data is the memory that starts there. The length is an argument of its own, as the
memory may be longer. Allocations succeed and no pointer is `NULL`.
-/

set_option autoImplicit false

namespace OpenCryptoki.Kmip

open Lib

/-- The error numbers that the functions return, with a minus sign in the source. -/
inductive Errno
  | einval
  | eio
  | e2big
  | emsgsize
  | ebadmsg
  | eoverflow
  deriving DecidableEq, Repr

/-! ### `BIGNUM` -/

/-- `BN_num_bits`. -/
def bnNumBits (bn : Int) : Nat := if bn = 0 then 0 else bn.natAbs.log2 + 1

/-- `BN_num_bytes`. -/
def bnNumBytes (bn : Int) : Nat := (bnNumBits bn + 7) / 8

/-- `BN_is_bit_set`. -/
def bnIsBitSet (bn : Int) (n : Nat) : Bool := bn.natAbs.testBit n

/-- `BN_set_negative`. Zero has no sign. -/
def bnSetNegative (bn : Int) (neg : Bool) : Int := if neg then -bn else bn

/-- `BN_bin2bn`. -/
def bnBin2bn (s : List UInt8) : Int := wordValue .big s

/-- `BN_bn2binpad`, which refuses a length that is too small. -/
def bnBn2binpad (bn : Int) (tolen : Nat) : Option (List UInt8) :=
  if bnNumBytes bn ≤ tolen then some (wordBytes .big tolen bn.natAbs) else none

/-! ### Encoding and decoding -/

def KMIP_BIG_INTEGER_BLOCK_LENGTH : Nat := 8

/-- `kmip_decode_bignum`. The first byte is read before the length is looked at. -/
def kmipDecodeBignum (data : List UInt8) (length : Nat) : Except (Halt Errno) Int := do
  let first ← access data[0]?
  let bytes ← access (readAt data 0 length)
  if first &&& 0x80 != 0 then
    return bnSetNegative (bnBin2bn (negateBytes bytes)) true
  else
    return bnSetNegative (bnBin2bn bytes) false

/-- `kmip_encode_bignum_length`. -/
def kmipEncodeBignumLength (bn : Int) : Nat :=
  let length := bnNumBytes bn
  if bn < 0 ∧ bnIsBitSet bn (length * 8 - 1) then length + 1 else length

/-- `kmip_encode_bignum`. -/
def kmipEncodeBignum (bn : Int) (length : Nat) : Except Errno (List UInt8) :=
  match bnBn2binpad bn length with
  | none      => .error .eio
  | some data => if bn < 0 then .ok (negateBytes data) else .ok data

/-- The length of a big integer in a message: `kmip_encode_bignum_length`, rounded up by the
caller to whole blocks. -/
def paddedBignumLength (bn : Int) : Nat :=
  let length := kmipEncodeBignumLength bn
  if length % KMIP_BIG_INTEGER_BLOCK_LENGTH ≠ 0 then
    length + (KMIP_BIG_INTEGER_BLOCK_LENGTH - length % KMIP_BIG_INTEGER_BLOCK_LENGTH)
  else length

end OpenCryptoki.Kmip
