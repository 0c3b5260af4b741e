import OpenCryptoki.Common.AesCbcPad
import OpenCryptoki.Lib.BlockPass
import OpenCryptoki.Lib.Ctr

/-!
# `OpenCryptoki.Common.AesCtr`: AES in counter mode with OpenSSL

The model of `aes_ctr_encrypt`, `aes_ctr_decrypt` and the functions for data in parts in
`usr/lib/common/mech_aes.c`, for a token whose `t_aes_ctr` is `openssl_specific_aes_ctr` in
`mech_openssl.c`.

AES with the key is a permutation of blocks. `evpCtr` is the counter mode of OpenSSL: it counts in
all 128 bits of the counter block, and says what the next counter block is.

The mechanism parameter is changed by each call that encrypts or decrypts. Allocations succeed, the
key is found, and `NULL` pointers are not in the model. The output is the bytes that are written.
-/

set_option autoImplicit false

namespace OpenCryptoki.Common

open Lib

/-- `CK_AES_CTR_PARAMS`. -/
structure AesCtrParams where
  ulCounterBits : Nat
  cb : List UInt8
  length_cb : cb.length = AES_BLOCK_SIZE

/-- AES with one key. -/
abbrev AesKey := BlockPerm UInt8 AES_BLOCK_SIZE

/-- The counter block with a value of 128 bits. -/
def counterBlock (c : Nat) : List UInt8 := wordBytes .big AES_BLOCK_SIZE c

/-- The value of a counter block. -/
def counterOf (block : List UInt8) : Nat := wordValue .big block

/-- Counter mode of OpenSSL on whole blocks: the output, and the next counter block. -/
def evpCtr (aes : AesKey) (iv data : List UInt8) : List UInt8 × List UInt8 :=
  (ctrFrom AES_BLOCK_SIZE aes.enc (fun i => counterBlock (counterOf iv + i)) 0 data,
    counterBlock (counterOf iv + data.length / AES_BLOCK_SIZE))

/-- The checks of `encr_mgr_init` and `decr_mgr_init` on the width of the counter. -/
def aesCtrInit (ctr : AesCtrParams) : Except Stop Unit :=
  check (¬ (ctr.ulCounterBits = 0 ∨ ctr.ulCounterBits > 128 ∨ ctr.ulCounterBits % 8 ≠ 0))
    .mechanismParamInvalid

/-- `openssl_cipher_perform` for `CKM_AES_CTR`: the output, and `out_v`. -/
def opensslCipherPerform (aes : AesKey) (inData initV : List UInt8) :
    Except Stop (List UInt8 × List UInt8) := do
  check (¬ inData.length > INT_MAX) .dataLenRange
  .ok (evpCtr aes initV inData)

/-- `openssl_specific_aes_ctr`: the output, and the counter block after it. -/
def opensslSpecificAesCtr (aes : AesKey) (inData counterblock : List UInt8) (counterWidth : Nat) :
    Except Stop (List UInt8 × List UInt8) := do
  check (¬ (counterWidth > AES_BLOCK_SIZE * 8 ∨ counterWidth = 0)) .argumentsBad
  let low ← access (readAt counterblock (AES_BLOCK_SIZE - counterWidth / 8) (counterWidth / 8))
  let initV ← access (writeAt (List.replicate AES_BLOCK_SIZE 0) 0 low)
  let (out, initV) ← opensslCipherPerform aes inData initV
  let low ← access (readAt initV (AES_BLOCK_SIZE - counterWidth / 8) (counterWidth / 8))
  let counterblock ← access (writeAt counterblock 0 low)
  .ok (out, counterblock)

/-- `ckm_aes_ctr_encrypt` and `ckm_aes_ctr_decrypt`, which is the same in this mode. -/
def ckmAesCtrCrypt (aes : AesKey) (inData : List UInt8) (outDataLen : Nat) (cb : List UInt8)
    (counterWidth : Nat) : Except Stop (List UInt8 × List UInt8) := do
  check (¬ outDataLen < inData.length) .bufferTooSmall
  check (counterWidth % 8 = 0) .mechanismParamInvalid
  opensslSpecificAesCtr aes inData cb counterWidth

/-- What an encryption and a decryption return for data of a wrong length. -/
structure CtrMode where
  lenRange : CkRv

/-- The encryption. -/
def ctrEncrypt : CtrMode := { lenRange := .dataLenRange }

/-- The decryption. -/
def ctrDecrypt : CtrMode := { lenRange := .encryptedDataLenRange }

/-- `aes_ctr_encrypt` and `aes_ctr_decrypt`, not for the length only: the output. -/
def aesCtrCrypt (mode : CtrMode) (aes : AesKey) (ctr : AesCtrParams) (inData : List UInt8)
    (outDataLen : Nat) : Except Stop (List UInt8) := do
  check (inData.length % AES_BLOCK_SIZE = 0) mode.lenRange
  check (¬ outDataLen < inData.length) .bufferTooSmall
  let (out, _) ← ckmAesCtrCrypt aes inData outDataLen ctr.cb ctr.ulCounterBits
  .ok out

/-- `aes_ctr_encrypt`. -/
def aesCtrEncrypt := aesCtrCrypt ctrEncrypt

/-- `aes_ctr_decrypt`. -/
def aesCtrDecrypt := aesCtrCrypt ctrDecrypt

/-- The `ENCR_DECR_CONTEXT` between the calls for data in parts: the counter block of the mechanism
parameter, and the bytes of `AES_CONTEXT`. -/
structure CtrContext where
  cb : List UInt8
  data : List UInt8
  deriving DecidableEq, Repr

/-- `aes_ctr_encrypt_update` and `aes_ctr_decrypt_update`, not for the length only: the output and
the context. -/
def aesCtrCryptUpdate (aes : AesKey) (counterBits : Nat) (ctx : CtrContext) (inData : List UInt8)
    (outDataLen : Nat) : Except Stop (List UInt8 × CtrContext) := do
  check (¬ inData.length > ULONG_MAX - ctx.data.length) .dataLenRange
  let total := ctx.data.length + inData.length
  if total < AES_BLOCK_SIZE then .ok ([], { ctx with data := ctx.data ++ inData })
  else do
    let remain := total % AES_BLOCK_SIZE
    let outLen := total - remain
    let bytes ← access (readAt inData 0 (outLen - ctx.data.length))
    let (out, cb) ← ckmAesCtrCrypt aes (ctx.data ++ bytes) outDataLen ctx.cb counterBits
    let rest ← access (readAt inData (inData.length - remain) remain)
    .ok (out, { cb := cb, data := rest })

/-- `aes_ctr_encrypt_final` and `aes_ctr_decrypt_final`. -/
def aesCtrCryptFinal (mode : CtrMode) (ctx : CtrContext) : Except Stop Unit :=
  check (ctx.data.length = 0) mode.lenRange

/-! ### Whole operations -/

/-- How the data is given: in one call, or in parts. -/
inductive CtrSupply
  | single (data : List UInt8)
  | parts (parts : List (List UInt8))

/-- All the data. -/
def CtrSupply.data : CtrSupply → List UInt8
  | .single data => data
  | .parts ps    => ps.flatten

/-- The calls with the parts of the data: all the output, and the context. -/
def aesCtrUpdates (aes : AesKey) (counterBits outDataLen : Nat) (ctx : CtrContext) :
    List (List UInt8) → Except Stop (List UInt8 × CtrContext)
  | []            => .ok ([], ctx)
  | part :: parts => do
    let (out, ctx) ← aesCtrCryptUpdate aes counterBits ctx part outDataLen
    let (outs, ctx) ← aesCtrUpdates aes counterBits outDataLen ctx parts
    .ok (out ++ outs, ctx)

/-- An encryption or a decryption, in buffers of `outDataLen` bytes: all the output. -/
def aesCtrRun (mode : CtrMode) (aes : AesKey) (ctr : AesCtrParams) (outDataLen : Nat) :
    CtrSupply → Except Stop (List UInt8)
  | .single data => aesCtrCrypt mode aes ctr data outDataLen
  | .parts parts => do
    let (out, ctx) ←
      aesCtrUpdates aes ctr.ulCounterBits outDataLen { cb := ctr.cb, data := [] } parts
    aesCtrCryptFinal mode ctx
    .ok out

end OpenCryptoki.Common
