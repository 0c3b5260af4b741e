import OpenCryptoki.Common.RsaMgf1

/-!
# `OpenCryptoki.Common.RsaPss`: the encoding of RSA-PSS

The model of `emsa_pss_encode` and `emsa_pss_verify` in `usr/lib/common/mech_rsa.c`. The
parameter check `check_pss_params` is in `Common/Sign.lean`.

`em` and `sig` are regions, and `buf` is a region of `buflen` bytes. Lengths and offsets are
computed in `CK_ULONG` as in the source.
-/

set_option autoImplicit false

namespace OpenCryptoki.Common

open Lib

/-- `emBits` for a modulus of so many bytes. -/
def pssEmBits (modbytes : Nat) : Nat := ulongSub (ulongMul modbytes 8) 1

/-- `emLen` for a modulus of so many bytes. -/
def pssEmLen (modbytes : Nat) : Nat :=
  if pssEmBits modbytes % 8 = 0 then ulongSub modbytes 1 else modbytes

/-- `0xFF >> (8 * emLen - emBits)`. -/
def pssTopMask (modbytes : Nat) : UInt8 :=
  UInt8.ofNat (0xFF >>> ulongSub (ulongMul 8 (pssEmLen modbytes)) (pssEmBits modbytes))

/-- `b[i] &= mask`. -/
def andAt (b : List UInt8) (i : Nat) (mask : UInt8) : Except Stop (List UInt8) := do
  let xs ← access (readAt b i 1)
  access (writeAt b i (xs.map (· &&& mask)))

/-- `emsa_pss_encode`: `em` and `*modbytes`. -/
def emsaPssEncode (tok : HashToken) (alloc : Nat → Bool) (rand : List UInt8) (pssParms : PssParams)
    (inData em : List UInt8) (modbytes : Nat) : Except Stop (List UInt8 × Nat) := do
  let emLen := pssEmLen modbytes
  let hlen := getShaSize pssParms.hashAlg
  let sLen := pssParms.sLen
  check (¬ emLen < ulongAdd (ulongAdd hlen sLen) 2) .dataLenRange
  check (inData.length = hlen) .dataLenRange
  let dbLen := ulongSub (ulongSub emLen hlen) 1
  let mLen := ulongAdd (8 + hlen) sLen
  let buflen := if dbLen < mLen then mLen else dbLen
  check (alloc 0) .hostMemory
  let em ← access (writeAt em 0 (List.replicate emLen 0))
  let buf := List.replicate buflen 0
  let salt := 8 + inData.length
  let buf ← (if sLen > 0 then rngGenerateAt rand buf salt sLen else .ok buf)
  let buf ← access (writeAt buf 8 inData)
  let m ← access (readAt buf 0 mLen)
  let h ← orReturn (tok.computeSha pssParms.hashAlg m)
  let em ← access (writeAt em dbLen h.toList)
  let psLen := ulongSub (ulongSub (ulongSub emLen sLen) hlen) 2
  let em ← access (writeAt em psLen [1])
  let saltBytes ← access (readAt buf salt sLen)
  let em ← access (writeAt em (ulongAdd psLen 1) saltBytes)
  let buf := List.replicate buflen 0
  let buf ← mgf1 tok (alloc 1) (access (readAt em dbLen hlen)) buf 0 dbLen pssParms.mgf
  let em ← xorAt em 0 buf 0 dbLen
  let em ← andAt em 0 (pssTopMask modbytes)
  let em ← access (writeAt em (ulongSub emLen 1) [0xbc])
  .ok (em, emLen)

/-- The loop over the padding in `emsa_pss_verify`, with `n` rounds left. -/
def skipZeros (buf : List UInt8) : Nat → Nat → Except Stop Nat
  | 0, i     => .ok i
  | n + 1, i => do
    let b ← access (readAt buf i 1)
    if b = [0] then skipZeros buf n (i + 1) else .ok i

/-- `emsa_pss_verify` from step 10 on, when `buf` starts with the unmasked data block. `h` is
what a read of `H` gives. -/
def pssCheckDb (tok : HashToken) (pssParms : PssParams) (inData buf : List UInt8) (plen : Nat)
    (h : Except Stop (List UInt8)) : Except Stop Unit := do
  let sLen := pssParms.sLen
  let i ← skipZeros buf plen 0
  check (i = plen) .signatureInvalid
  let one ← access (readAt buf i 1)
  check (one = [1]) .signatureInvalid
  let salt := ulongAdd i 1
  -- `M'` is built behind the salt.
  let m := ulongAdd salt sLen
  let buf ← access (writeAt buf m (List.replicate 8 0))
  let buf ← access (writeAt buf (ulongAdd m 8) inData)
  let saltBytes ← access (readAt buf salt sLen)
  let buf ← access (writeAt buf (ulongAdd m (8 + inData.length)) saltBytes)
  let mBytes ← access (readAt buf m (ulongAdd (8 + getShaSize pssParms.hashAlg) sLen))
  let hash ← orReturn (tok.computeSha pssParms.hashAlg mBytes)
  let h ← h
  check (hash.toList = h) .signatureInvalid

/-- `emsa_pss_verify`. It is `ok` for `CKR_OK`. -/
def emsaPssVerify (tok : HashToken) (alloc : Nat → Bool) (pssParms : PssParams)
    (inData sig : List UInt8) (modbytes : Nat) : Except Stop Unit := do
  let emLen := pssEmLen modbytes
  let hlen := getShaSize pssParms.hashAlg
  let sLen := pssParms.sLen
  check (¬ emLen < ulongAdd (ulongAdd hlen sLen) 2) .signatureInvalid
  check (inData.length = hlen) .dataLenRange
  let dbLen := ulongSub (ulongSub emLen hlen) 1
  let buflen := ulongAdd dbLen (ulongAdd (8 + hlen) sLen)
  check (alloc 0) .hostMemory
  let buf := List.replicate buflen 0
  let last ← access (readAt sig (ulongSub emLen 1) 1)
  check (last = [0xbc]) .signatureInvalid
  let first ← access (readAt sig 0 1)
  check (first.map (· &&& ~~~ pssTopMask modbytes) = [0]) .signatureInvalid
  let h := access (readAt sig dbLen hlen)
  let buf ← mgf1 tok (alloc 1) h buf 0 dbLen pssParms.mgf
  let buf ← xorAt buf 0 sig 0 dbLen
  let buf ← andAt buf 0 (pssTopMask modbytes)
  pssCheckDb tok pssParms inData buf (ulongSub (ulongSub (ulongSub emLen hlen) sLen) 2) h

end OpenCryptoki.Common
