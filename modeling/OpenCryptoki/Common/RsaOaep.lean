import OpenCryptoki.Common.ConstantTime
import OpenCryptoki.Common.RsaMgf1

/-!
# `OpenCryptoki.Common.RsaOaep`: the encoding of RSA-OAEP

The model of `encode_eme_oaep` and `decode_eme_oaep` in `usr/lib/common/mech_rsa.c`. `hash` is
the hash of the label, and its length is `hlen`. `MAX_SHA_HASH_SIZE` and `EVP_MAX_MD_SIZE` are
the same number.

All decisions of the decoder are masks. Its lengths are of type `size_t`, but the functions of
`constant_time.h` take and return 32-bit numbers, and the model converts where the source does.
-/

set_option autoImplicit false

namespace OpenCryptoki.Common

open Lib

/-- `encode_eme_oaep`: `emData`. -/
def encodeEmeOaep (tok : HashToken) (alloc : Nat → Bool) (rand mData emData : List UInt8)
    (modLength : Nat) (mgf : Option DigestMechanism) (hash : List UInt8) :
    Except Stop (List UInt8) := do
  let mLen := mData.length
  let hlen := hash.length
  check (¬ modLength < ulongAdd mLen (2 * hlen + 2)) .dataLenRange
  let emData ← access (writeAt emData 0 (List.replicate modLength 0))
  let maskedSeed := 1
  let maskedDB := hlen + 1
  let psLen := ulongSub (ulongSub (ulongSub modLength mLen) (2 * hlen)) 2
  let emData ← access (writeAt emData maskedDB hash)
  let emData ← access (writeAt emData (maskedDB + hlen) (List.replicate psLen 0))
  let emData ← access (writeAt emData (maskedDB + (hlen + psLen)) [1])
  let emData ← access (writeAt emData (maskedDB + (hlen + psLen + 1)) mData)
  let seed ← rngGenerateAt rand (List.replicate MAX_SHA_HASH_SIZE 0) 0 hlen
  let dbMaskLen := ulongSub (ulongSub modLength hlen) 1
  check (alloc 0) .hostMemory
  let dbMask ← mgf1 tok (alloc 1) (access (readAt seed 0 hlen)) (List.replicate dbMaskLen 0) 0
    dbMaskLen mgf
  let emData ← xorAt emData maskedDB dbMask 0 dbMaskLen
  let emData ← access (writeAt emData maskedSeed (List.replicate hlen 0))
  let emData ← mgf1 tok (alloc 2) (access (readAt emData maskedDB dbMaskLen)) emData maskedSeed
    hlen mgf
  xorAt emData maskedSeed seed 0 hlen

/-- What `decode_eme_oaep` returns, with `out_data` and `*out_data_len` after it. -/
structure OaepResult where
  rc : CkRv
  outData : List UInt8
  outDataLen : Nat
  deriving DecidableEq, Repr

/-- `decode_eme_oaep` from `done` on. The numbers are those of `CKR_OK` and of
`CKR_ENCRYPTED_DATA_INVALID`. -/
def oaepDone (ok : CUInt) (mlen : Nat) (outData : List UInt8) : OaepResult where
  rc := if constantTimeSelectInt ok 0 0x40 = 0 then .ok else .encryptedDataInvalid
  outData
  outDataLen := ofInt (constantTimeSelectInt ok (toUInt mlen) 0)

/-- The variables of the search for the separator. -/
structure OaepScan where
  oneIndex : Nat
  foundOneByte : CUInt
  ok : CUInt

/-- A round of the search, at the byte `db[i]`. -/
def oaepScanByte (b : UInt8) (i : Nat) (s : OaepScan) : OaepScan :=
  let equals1 := constantTimeEq (byteToUInt b) 1
  let equals0 := constantTimeIsZero (byteToUInt b)
  let foundOneByte := s.foundOneByte ||| equals1
  { oneIndex := ofInt (constantTimeSelectInt (~~~ s.foundOneByte &&& equals1) (toUInt i)
      (toUInt s.oneIndex))
    foundOneByte
    ok := s.ok &&& (foundOneByte ||| equals0) }

/-- The search over the bytes of `db` from index `i` on. -/
def oaepScan : List UInt8 → Nat → OaepScan → OaepScan
  | [], _, s      => s
  | b :: bs, i, s => oaepScan bs (i + 1) (oaepScanByte b i s)

/-- The inner loop of the move: `db[i] = mask ? db[i + msg_index] : db[i]`. -/
def oaepMove (mask : CUInt) (msgIndex : Nat) : (rounds i : Nat) → List UInt8 →
    Except Stop (List UInt8)
  | 0, _, db          => .ok db
  | rounds + 1, i, db => do
    let a ← access db[i + msgIndex]?
    let b ← access db[i]?
    let db ← access (writeAt db i [constantTimeSelect8 mask a b])
    oaepMove mask msgIndex rounds (i + 1) db

/-- The loop that moves the message to the left by `shift` bytes, bit by bit of `shift`. `n` is
`dblen - hlen - 1`. If `msg_index` is shifted out to zero, then the source does not leave the
loop; this counts as a fault. -/
def oaepShift (n shift hlen dblen : Nat) : (rounds msgIndex : Nat) → List UInt8 →
    Except Stop (List UInt8)
  | 0, _, _                  => .error .fault
  | rounds + 1, msgIndex, db =>
    if msgIndex < n then do
      let mask := ~~~ constantTimeEq (toUInt (msgIndex &&& shift)) 0
      let db ← oaepMove mask msgIndex (dblen - msgIndex - (hlen + 1)) (hlen + 1) db
      oaepShift n shift hlen dblen rounds (msgIndex <<< 1 % 2 ^ 64) db
    else .ok db

/-- The loop that copies the message. -/
def oaepCopy (ok : CUInt) (mlen hlen : Nat) (db : List UInt8) : (rounds i : Nat) → List UInt8 →
    Except Stop (List UInt8)
  | 0, _, outData          => .ok outData
  | rounds + 1, i, outData => do
    let mask := ok &&& constantTimeLt (toUInt i) (toUInt mlen)
    let a ← access db[i + hlen + 1]?
    let b ← access outData[i]?
    let outData ← access (writeAt outData i [constantTimeSelect8 mask a b])
    oaepCopy ok mlen hlen db rounds (i + 1) outData

/-- `decode_eme_oaep` when `db` has been unmasked. Of `CRYPTO_memcmp` it only matters if it is
zero. -/
def oaepFinish (hash db outData : List UInt8) (outDataLen : Nat) (ok : CUInt) :
    Except Stop OaepResult := do
  let hlen := hash.length
  let dblen := db.length
  let dbHash ← access (readAt db 0 hlen)
  let ok := ok &&& constantTimeIsZero (if dbHash = hash then 0 else 1)
  let s := oaepScan (db.drop hlen) hlen { oneIndex := 0, foundOneByte := 0, ok }
  let ok := s.ok &&& s.foundOneByte
  let msgIndex := ulongAdd s.oneIndex 1
  let mlen := ulongSub dblen msgIndex
  let ok := ok &&& constantTimeGe (toUInt outDataLen) (toUInt mlen)
  let n := ulongSub (ulongSub dblen hlen) 1
  let outDataLen := ofInt (constantTimeSelectInt (constantTimeLt (toUInt n) (toUInt outDataLen))
    (toUInt n) (toUInt outDataLen))
  let db ← oaepShift n (ulongSub n mlen) hlen dblen 65 1 db
  let outData ← oaepCopy ok mlen hlen db outDataLen 0 outData
  .ok (oaepDone ok mlen outData)

/-- Go on with what `mgf1` gives, and return `failed` if it has failed. -/
def orDone {α : Type} (x : Except Stop α) (failed : OaepResult)
    (next : α → Except Stop OaepResult) : Except Stop OaepResult :=
  match x with
  | .error .fault  => .error .fault
  | .error (.rc _) => .ok failed
  | .ok a          => next a

/-- `decode_eme_oaep`. Where `mgf1` fails, `mlen` is still `-1`. -/
def decodeEmeOaep (tok : HashToken) (alloc : Nat → Bool) (emData outData : List UInt8)
    (outDataLen : Nat) (mgf : Option DigestMechanism) (hash : List UInt8) :
    Except Stop OaepResult :=
  let hlen := hash.length
  let emLen := emData.length
  if emLen < 2 * hlen + 2 then .ok ⟨.argumentsBad, outData, outDataLen⟩
  else if alloc 0 = false then .ok ⟨.hostMemory, outData, outDataLen⟩
  else do
    let dblen := ulongSub (ulongSub emLen hlen) 1
    let first ← access emData[0]?
    let ok := constantTimeIsZero (byteToUInt first)
    let maskedseed := 1
    let maskeddb := 1 + hlen
    let failed := oaepDone ok ULONG_MAX outData
    orDone (mgf1 tok (alloc 1) (access (readAt emData maskeddb dblen))
        (List.replicate MAX_SHA_HASH_SIZE 0) 0 hlen mgf) failed fun seed => do
      let seed ← xorAt seed 0 emData maskedseed hlen
      orDone (mgf1 tok (alloc 2) (access (readAt seed 0 hlen)) (List.replicate dblen 0) 0 dblen
          mgf) failed fun db => do
        let db ← xorAt db 0 emData maskeddb dblen
        oaepFinish hash db outData outDataLen ok

end OpenCryptoki.Common
