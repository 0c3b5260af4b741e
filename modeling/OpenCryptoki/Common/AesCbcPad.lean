import OpenCryptoki.Common.AesXts

/-!
# `OpenCryptoki.Common.AesCbcPad`: decryption of AES-CBC with PKCS padding

The model of `aes_cbc_pad_decrypt`, `aes_cbc_pad_decrypt_update` and `aes_cbc_pad_decrypt_final` in
`usr/lib/common/mech_aes.c`, with `ckm_aes_cbc_decrypt` and `strip_pkcs_padding` of `utility.c`.

Memory is made of regions: `out_data` is as long as the caller has allocated it, `clear` and
`cipher` are as long as they have been allocated, and the mechanism parameter is the chaining
value. An access outside a region is a fault. A function that returns an error has written nothing
and has left `*out_data_len` and its context as they were, so an error is only a return value.

`alloc` says if the allocation succeeds. `NULL` pointers are not in the model.
-/

set_option autoImplicit false

namespace OpenCryptoki.Common

open Lib

/-- What the functions for AES-CBC get from the token. `t_aes_cbc`, which may be `NULL`, gets the
value of the key, `encrypt`, `init_v` and the data. It writes its result to `out_data` and sets
`*out_data_len` to the length of it. -/
structure CbcToken (K : Type) where
  findInMap : Nat → Except Failure (KeyObject K)
  tAesCbc : Option (K → Bool → List UInt8 → List UInt8 → Except Failure (List UInt8))

/-- `AES_CONTEXT`: the first `len` bytes of `data`. -/
structure AesContext where
  data : List UInt8
  len_le : data.length ≤ AES_BLOCK_SIZE

/-- The context after its bytes have been written. They have to fit `data`. -/
def AesContext.ofData (data : List UInt8) : Except Stop AesContext :=
  if h : data.length ≤ AES_BLOCK_SIZE then .ok ⟨data, h⟩ else .error .fault

/-- The `ENCR_DECR_CONTEXT` of `CKM_AES_CBC_PAD`. Its parameter is the chaining value. -/
abbrev CbcPadCtx := EncrDecrContext (List UInt8) AesContext

/-- `strip_pkcs_padding`: the return value and `*data_len`. -/
def stripPkcsPadding (ptr : List UInt8) (totalLen dataLen : Nat) : Except Stop (CkRv × Nat) := do
  let padValue ← access ptr[ulongSub totalLen 1]?
  if padValue.toNat > totalLen then .ok (.encryptedDataInvalid, dataLen)
  else .ok (.ok, totalLen - padValue.toNat)

section
variable {K : Type}

/-- `ckm_aes_cbc_decrypt`: `out_data` and `*out_data_len`. -/
def ckmAesCbcDecrypt (tok : CbcToken K) (inData outData : List UInt8) (outDataLen : Nat)
    (initV : List UInt8) (key : KeyObject K) : Except Stop (List UInt8 × Nat) := do
  check (¬ outDataLen < inData.length) .bufferTooSmall
  match tok.tAesCbc with
  | none         => .error (.rc .mechanismInvalid)
  | some tAesCbc => do
    let bytes ← orReturn (tAesCbc key.value false initV inData)
    let outData ← access (writeAt outData 0 bytes)
    .ok (outData, bytes.length)

/-- `aes_cbc_pad_decrypt`: `out_data` and `*out_data_len`. What `strip_pkcs_padding` returns is
not looked at. -/
def aesCbcPadDecrypt (tok : CbcToken K) (alloc lengthOnly : Bool) (ctx : CbcPadCtx)
    (inData outData : List UInt8) (outDataLen : Nat) : Except Stop (List UInt8 × Nat) := do
  let key ← orReturn (tok.findInMap ctx.key)
  check (inData.length % AES_BLOCK_SIZE = 0) .encryptedDataLenRange
  let paddedLen := inData.length
  if lengthOnly then .ok (outData, paddedLen)
  else do
    check alloc .hostMemory
    let (clear, paddedLen) ←
      ckmAesCbcDecrypt tok inData (List.replicate paddedLen 0) paddedLen ctx.param key
    let (_, outDataLen) ← stripPkcsPadding clear paddedLen outDataLen
    let bytes ← access (readAt clear 0 outDataLen)
    let outData ← access (writeAt outData 0 bytes)
    .ok (outData, outDataLen)

/-- `aes_cbc_pad_decrypt_update`: the context, `out_data` and `*out_data_len`. -/
def aesCbcPadDecryptUpdate (tok : CbcToken K) (alloc lengthOnly : Bool) (ctx : CbcPadCtx)
    (inData outData : List UInt8) (outDataLen : Nat) :
    Except Stop (CbcPadCtx × List UInt8 × Nat) := do
  let context := ctx.context
  check (¬ inData.length > ULONG_MAX - context.data.length) .dataLenRange
  let total := context.data.length + inData.length
  if total ≤ AES_BLOCK_SIZE then
    if lengthOnly = false ∧ 0 < inData.length then do
      let context ← AesContext.ofData (context.data ++ inData)
      .ok ({ ctx with context := context }, outData, 0)
    else .ok (ctx, outData, 0)
  else
    -- The last block is kept back, even if it is full.
    let remain := if total % AES_BLOCK_SIZE = 0 then AES_BLOCK_SIZE else total % AES_BLOCK_SIZE
    let outLen := total - remain
    if lengthOnly then .ok (ctx, outData, outLen)
    else do
      let key ← orReturn (tok.findInMap ctx.key)
      check alloc .hostMemory
      let bytes ← access (readAt inData 0 (ulongSub outLen context.data.length))
      let cipher ← access (writeAt (List.replicate outLen 0) 0 context.data)
      let cipher ← access (writeAt cipher context.data.length bytes)
      let (outData, outDataLen) ← ckmAesCbcDecrypt tok cipher outData outDataLen ctx.param key
      let last ← access (readAt cipher (ulongSub outLen AES_BLOCK_SIZE) AES_BLOCK_SIZE)
      let param ← access (writeAt ctx.param 0 last)
      let rest ← access (readAt inData (ulongSub inData.length remain) remain)
      let context ← AesContext.ofData rest
      .ok ({ ctx with param := param, context := context }, outData, outDataLen)

/-- `aes_cbc_pad_decrypt_final`: `out_data` and `*out_data_len`. What `strip_pkcs_padding` returns
is not looked at, and `*out_data_len` is not compared with anything. -/
def aesCbcPadDecryptFinal (tok : CbcToken K) (lengthOnly : Bool) (ctx : CbcPadCtx)
    (outData : List UInt8) : Except Stop (List UInt8 × Nat) := do
  let key ← orReturn (tok.findInMap ctx.key)
  check (ctx.context.data.length = AES_BLOCK_SIZE) .encryptedDataLenRange
  if lengthOnly then .ok (outData, AES_BLOCK_SIZE)
  else do
    let (clear, outLen) ← ckmAesCbcDecrypt tok ctx.context.data
      (List.replicate AES_BLOCK_SIZE 0) AES_BLOCK_SIZE ctx.param key
    let (_, outLen) ← stripPkcsPadding clear outLen outLen
    let bytes ← access (readAt clear 0 outLen)
    let outData ← access (writeAt outData 0 bytes)
    .ok (outData, outLen)

end

/-! ### A decryption in parts -/

/-- A call of `C_DecryptUpdate`. The buffer is as long as the caller says. -/
structure UpdateCall where
  lengthOnly : Bool
  inData : List UInt8
  outData : List UInt8

/-- A decryption in parts so far: the context, what has been taken and what has been returned. -/
structure PadRun where
  ctx : CbcPadCtx
  input : List UInt8
  output : List UInt8

/-- A run after `C_DecryptInit`. -/
def PadRun.init (key : Nat) (iv : List UInt8) : PadRun where
  ctx := { key, param := iv, context := ⟨[], Nat.zero_le _⟩ }
  input := []
  output := []

/-- The run after a call. `C_DecryptUpdate` ends the operation on an error, unless the buffer was
too small. -/
def PadRun.step {K : Type} (tok : CbcToken K) (s : PadRun) (c : UpdateCall) : Except Stop PadRun :=
  match aesCbcPadDecryptUpdate tok true c.lengthOnly s.ctx c.inData c.outData c.outData.length with
  | .error (.rc .bufferTooSmall) => .ok s
  | .error e                     => .error e
  | .ok (ctx, outData, n)        =>
    if c.lengthOnly then .ok { s with ctx := ctx }
    else .ok { ctx, input := s.input ++ c.inData, output := s.output ++ outData.take n }

/-- The run after several calls. -/
def PadRun.steps {K : Type} (tok : CbcToken K) (s : PadRun) (cs : List UpdateCall) :
    Except Stop PadRun :=
  cs.foldlM (PadRun.step tok) s

end OpenCryptoki.Common
