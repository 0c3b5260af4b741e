import OpenCryptoki.Lib.Xor
import OpenCryptoki.Common.RsaPkcs

/-!
# `OpenCryptoki.Common.RsaMgf1`: the mask generation function of RSA

The model of `mgf1` in `usr/lib/common/mech_rsa.c`, and what the models of the RSA encodings
share.

Buffers are regions. A function that leaves its buffers stops with a `fault`
(`Lib/Checked.lean`); any other stop is a return value. `CK_ULONG` arithmetic wraps around, so
an offset may be far outside a buffer.

`alloc` says for each allocation of a call, in the order of the source, if it succeeds. A
buffer that is handed to `rng_generate` counts as accessed.
-/

set_option autoImplicit false

namespace OpenCryptoki.Common

open Lib

/-- `rng_generate` into a range of a region. -/
def rngGenerateAt (rand b : List UInt8) (off n : Nat) : Except Stop (List UInt8) := do
  let _ ← access (readAt b off n)
  match rngGenerate rand n with
  | .error rc       => .error (.rc rc)
  | .ok (bytes, _)  => access (writeAt b off bytes)

/-- `b[off + i] ^= c[cOff + i]` for `n` bytes. -/
def xorAt (b : List UInt8) (off : Nat) (c : List UInt8) (cOff n : Nat) :
    Except Stop (List UInt8) := do
  let xs ← access (readAt b off n)
  let ys ← access (readAt c cOff n)
  access (writeAt b off (xorBytes xs ys))

/-- `compute_sha`. The digest has the length that `get_sha_size` names. -/
structure HashToken where
  computeSha : (m : DigestMechanism) → List UInt8 → Except Failure (Vector UInt8 (getShaSize m))

/-- `get_mgf_mech`. A value that names no mask generation function is `none`, and there is
none with MD5. -/
def getMgfMech (mgf : Option DigestMechanism) : Except CkRv DigestMechanism :=
  match mgf with
  | none   => .error .mechanismInvalid
  | some m => if m = .md5 then .error .mechanismInvalid else .ok m

/-- `counter` in `mgf1`. -/
def mgf1Counter (i : Nat) : List UInt8 :=
  [UInt8.ofNat ((i >>> 24) &&& 0xff), UInt8.ofNat ((i >>> 16) &&& 0xff),
    UInt8.ofNat ((i >>> 8) &&& 0xff), UInt8.ofNat (i &&& 0xff)]

/-- The loop of `mgf1`, with `T_len` bytes left. Each round takes at least one byte, so `T_len`
rounds are enough. `seed` is what a read of the seed gives. -/
def mgf1Loop (tok : HashToken) (mech : DigestMechanism) (seed : Except Stop (List UInt8))
    (maskOff : Nat) : (rounds i tLen : Nat) → List UInt8 → Except Stop (List UInt8)
  | 0, _, _, mask => .ok mask
  | rounds + 1, i, tLen, mask =>
    if tLen = 0 then .ok mask
    -- `i` is an `int`: now it is negative, and `mask + i * hlen` is in front of the mask.
    else if INT_MAX < i then .error .fault
    else do
      let bytes ← seed
      let hash ← orReturn (tok.computeSha mech (bytes ++ mgf1Counter i))
      let n := min tLen (getShaSize mech)
      let mask ← access (writeAt mask (maskOff + i * getShaSize mech) (hash.toList.take n))
      mgf1Loop tok mech seed maskOff rounds (i + 1) (tLen - n) mask

/-- `mgf1` with the mask at an offset of a region, which is returned. -/
def mgf1 (tok : HashToken) (alloc : Bool) (seed : Except Stop (List UInt8)) (mask : List UInt8)
    (maskOff maskLen : Nat) (mgf : Option DigestMechanism) : Except Stop (List UInt8) :=
  match getMgfMech mgf with
  | .error _ => .error (.rc .functionFailed)
  | .ok mech => do
    check alloc .hostMemory
    mgf1Loop tok mech seed maskOff maskLen 0 maskLen mask

end OpenCryptoki.Common
