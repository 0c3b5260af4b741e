import OpenCryptoki.Lib.BlockMap
import OpenCryptoki.Common.Pkcs11

/-!
# `OpenCryptoki.Common.AesXts`: AES-XTS in one call and in parts

The model of `aes_xts_cipher`, `ckm_aes_xts_crypt`, `aes_xts_crypt`, `aes_xts_crypt_update`
and `aes_xts_crypt_final` in `usr/lib/common/mech_aes.c`.

`aes_xts_cipher` is the part of `t_aes_xts` that all tokens share. It gets the cipher on full
blocks as a callback, `cipher_blocks`, which also moves `iv` on. A message whose last block is
not full is completed by ciphertext stealing.

A message that arrives in parts is kept back by at least one block, because the last full
block is needed for the stealing. `AesXtsContext` holds less than two blocks, which the type
of `len` says.

Memory at `out_data` is a `Buf`, so a function that reads back its own output does so here
too. The input does not overlap it. `NULL` for other pointers, which the functions refuse at
once, is not in the model. Allocations succeed. A callback that fails has written nothing.
-/

set_option autoImplicit false

namespace OpenCryptoki.Common

open Lib

/-- A block, a tweak or an `iv`. -/
abbrev AesBlock := Vector UInt8 AES_BLOCK_SIZE

/-- The callbacks of `aes_xts_cipher`, for a key and a direction. -/
structure XtsCallbacks where
  ivFromTweak : AesBlock → Except Failure AesBlock
  cipherBlocks : List UInt8 → AesBlock → Except Failure (List UInt8 × AesBlock)

/-- The callbacks that a tweakable cipher on single blocks gives. -/
def XtsCallbacks.ofCipher (ivFromTweak : AesBlock → AesBlock)
    (c : BlockCipher UInt8 AesBlock AES_BLOCK_SIZE) : XtsCallbacks where
  ivFromTweak tweak := .ok (ivFromTweak tweak)
  cipherBlocks bytes iv := .ok (c.run iv bytes)

/-- What `aes_xts_cipher` writes to: the memory at `out_data`, and `iv`. -/
structure XtsState where
  out : Buf
  iv : AesBlock

/-- What a function with the output parameters `out_data` and `out_data_len` returns. -/
structure CryptResult where
  rc : CkRv
  out : Option Buf
  outDataLen : Nat
  iv : AesBlock

namespace XtsCallbacks

/-- A call of `cipher_blocks` with the output at offset `off`. -/
def blocksAt (cb : XtsCallbacks) (s : XtsState) (off : Nat) (bytes : List UInt8) :
    Except (Failure × XtsState) XtsState :=
  match cb.cipherBlocks bytes s.iv with
  | .error f      => .error (f, s)
  | .ok (res, iv) => .ok { out := s.out.write off res, iv := iv }

/-- The stealing at the end of `aes_xts_cipher`. `in_data` and `out_data` are at `pos`. -/
def stealBlock (cb : XtsCallbacks) (s : XtsState) (inData : List UInt8) (pos : Nat) :
    Except (Failure × XtsState) XtsState :=
  let inRest := inData.drop pos
  let n := inRest.length
  let out := s.out.write pos (s.out.read (pos - AES_BLOCK_SIZE) n)
  let block := inRest ++ out.read (pos - AES_BLOCK_SIZE + n) (AES_BLOCK_SIZE - n)
  cb.blocksAt { s with out := out } (pos - AES_BLOCK_SIZE) block

/-- `aes_xts_cipher` after its checks: the state and `bytes_processed`. -/
def cryptData (cb : XtsCallbacks) (s : XtsState) (inData : List UInt8) (encrypt final : Bool) :
    Except (Failure × XtsState) (XtsState × Nat) := do
  let inRest := inData.length % AES_BLOCK_SIZE
  let holdLast := !encrypt && final
  let len := inData.length - inRest - if holdLast then AES_BLOCK_SIZE else 0
  let s ← (if 0 < len then cb.blocksAt s 0 (inData.take len) else .ok s)
  let ivPrev := s.iv
  let s ←
    (if holdLast then cb.blocksAt s len ((inData.drop len).take AES_BLOCK_SIZE) else .ok s)
  let pos := if holdLast then len + AES_BLOCK_SIZE else len
  if final && pos < inData.length then
    -- On decryption the last full block has been encrypted with the later `iv`: it is done
    -- once more, and the `iv` before it is for the block that the stealing completes.
    let s ←
      (if !encrypt then do
        let s ← cb.blocksAt s (pos - AES_BLOCK_SIZE)
          ((inData.drop (pos - AES_BLOCK_SIZE)).take AES_BLOCK_SIZE)
        .ok { s with iv := ivPrev }
      else .ok s)
    let s ← cb.stealBlock s inData pos
    .ok (s, pos + (inData.length - pos))
  else .ok (s, pos)

end XtsCallbacks

/-- `aes_xts_cipher`. -/
def aesXtsCipher (cb : XtsCallbacks) (inData : List UInt8) (out : Option Buf) (outDataLen : Nat)
    (tweak : AesBlock) (encrypt initial final : Bool) (iv : AesBlock) : CryptResult :=
  if !final && inData.length % AES_BLOCK_SIZE ≠ 0 then ⟨.dataLenRange, out, outDataLen, iv⟩
  else if final && inData.length < AES_BLOCK_SIZE then ⟨.dataLenRange, out, outDataLen, iv⟩
  else
    match out with
    | none => ⟨.ok, none, inData.length, iv⟩
    | some buf =>
      if outDataLen < inData.length then ⟨.bufferTooSmall, out, outDataLen, iv⟩
      else
        match if initial then cb.ivFromTweak tweak else .ok iv with
        | .error f => ⟨f.rc, out, outDataLen, iv⟩
        | .ok iv =>
          match cb.cryptData { out := buf, iv := iv } inData encrypt final with
          | .error (f, s)           => ⟨f.rc, some s.out, outDataLen, s.iv⟩
          | .ok (s, bytesProcessed) => ⟨.ok, some s.out, bytesProcessed, s.iv⟩

/-- What the functions for AES-XTS get from the token. `t_aes_xts`, which may be `NULL`, is
`aes_xts_cipher` with callbacks for the key and the direction. -/
structure XtsToken (K : Type) where
  findInMap : Nat → Except Failure (KeyObject K)
  tAesXts : Option (K → Bool → XtsCallbacks)

/-- `AES_XTS_CONTEXT`. -/
structure AesXtsContext where
  iv : AesBlock
  data : Buf
  len : Fin (2 * AES_BLOCK_SIZE)
  initialized : Bool

/-- The context after the `memset` in `encr_mgr_init` and in `aes_xts_crypt_final`. -/
def AesXtsContext.zero : AesXtsContext where
  iv := Vector.replicate AES_BLOCK_SIZE 0
  data := fun _ => 0
  len := ⟨0, by decide⟩
  initialized := false

/-- `ENCR_DECR_CONTEXT` of an active operation, with a mechanism parameter of type `P` and a
work area of type `C`. -/
structure EncrDecrContext (P C : Type) where
  key : Nat
  param : P
  context : C

/-- The `ENCR_DECR_CONTEXT` of `CKM_AES_XTS`. Its parameter is the tweak. -/
abbrev XtsCtx := EncrDecrContext AesBlock AesXtsContext

/-- What an update or final function returns. -/
structure PartResult (C : Type) where
  rc : CkRv
  ctx : C
  out : Option Buf
  outDataLen : Nat

section
variable {K : Type}

/-- `ckm_aes_xts_crypt`. -/
def ckmAesXtsCrypt (tok : XtsToken K) (inData : List UInt8) (out : Option Buf)
    (outDataLen : Nat) (tweak : AesBlock) (key : KeyObject K) (initial final : Bool)
    (iv : AesBlock) (encrypt : Bool) : CryptResult :=
  match out with
  | none => ⟨.functionFailed, out, outDataLen, iv⟩
  | some _ =>
    if outDataLen < inData.length then ⟨.bufferTooSmall, out, inData.length, iv⟩
    else
      match tok.tAesXts with
      | none    => ⟨.mechanismInvalid, out, outDataLen, iv⟩
      | some cb =>
        aesXtsCipher (cb key.value encrypt) inData out outDataLen tweak encrypt initial final iv

/-- `aes_xts_crypt`, which is `aes_xts_encrypt` and `aes_xts_decrypt`. -/
def aesXtsCrypt (tok : XtsToken K) (lengthOnly encrypt : Bool) (ctx : XtsCtx)
    (inData : List UInt8) (out : Option Buf) (outDataLen : Nat) : PartResult XtsCtx :=
  if inData.length < AES_BLOCK_SIZE then ⟨.dataLenRange, ctx, out, outDataLen⟩
  else
    match tok.findInMap ctx.key with
    | .error f => ⟨f.rc, ctx, out, outDataLen⟩
    | .ok key =>
      if lengthOnly then ⟨.ok, ctx, out, inData.length⟩
      else if outDataLen < inData.length then ⟨.bufferTooSmall, ctx, out, inData.length⟩
      else
        let r := ckmAesXtsCrypt tok inData out outDataLen ctx.param key true true
          ctx.context.iv encrypt
        ⟨r.rc, { ctx with context := { ctx.context with iv := r.iv } }, r.out, r.outDataLen⟩

/-- What is kept of the old and the new bytes, when only kept bytes have gone out, is still
less than two blocks. -/
theorem kept_lt {len n : Nat}
    (hshort : len + n - (AES_BLOCK_SIZE + (len + n) % AES_BLOCK_SIZE) < len) :
    len - (len + n - (AES_BLOCK_SIZE + (len + n) % AES_BLOCK_SIZE)) + n < 2 * AES_BLOCK_SIZE := by
  simp only [AES_BLOCK_SIZE] at *
  omega

/-- What is kept is less than two blocks. -/
theorem remain_lt (n : Nat) : AES_BLOCK_SIZE + n % AES_BLOCK_SIZE < 2 * AES_BLOCK_SIZE := by
  simp only [AES_BLOCK_SIZE]
  omega

/-- `aes_xts_crypt_update`, which is `aes_xts_encrypt_update` and `aes_xts_decrypt_update`. -/
def aesXtsCryptUpdate (tok : XtsToken K) (lengthOnly encrypt : Bool) (ctx : XtsCtx)
    (inData : List UInt8) (out : Option Buf) (outDataLen : Nat) : PartResult XtsCtx :=
  let context := ctx.context
  if inData.length > ULONG_MAX - context.len then ⟨.dataLenRange, ctx, out, outDataLen⟩
  else
    let total := context.len + inData.length
    if h : total < 2 * AES_BLOCK_SIZE then
      let context :=
        if !lengthOnly && 0 < inData.length then
          { context with data := context.data.write context.len inData, len := ⟨total, h⟩ }
        else context
      ⟨.ok, { ctx with context := context }, out, 0⟩
    else
      -- At least two full blocks: at least one full block is kept.
      let remain := AES_BLOCK_SIZE + total % AES_BLOCK_SIZE
      let outLen := total - remain
      if lengthOnly then ⟨.ok, ctx, out, outLen⟩
      else if outDataLen < outLen then ⟨.bufferTooSmall, ctx, out, outDataLen⟩
      else
        match tok.findInMap ctx.key with
        | .error f => ⟨f.rc, ctx, out, outDataLen⟩
        | .ok key =>
          if hshort : outLen < context.len then
            let r := ckmAesXtsCrypt tok (context.data.read 0 outLen) out outDataLen ctx.param key
              (!context.initialized) false context.iv encrypt
            -- The test of the source: it leaves when the call has succeeded.
            if r.rc = .ok then
              ⟨r.rc, { ctx with context := { context with iv := r.iv } }, r.out, r.outDataLen⟩
            else
              let moved := context.data.write 0 (context.data.read outLen (context.len - outLen))
              let context :=
                { iv := r.iv
                  data := moved.write (context.len - outLen) inData
                  len := ⟨context.len - outLen + inData.length, kept_lt hshort⟩
                  initialized := true }
              ⟨r.rc, { ctx with context := context }, r.out, r.outDataLen⟩
          else
            let clear := context.data.read 0 context.len ++ inData.take (outLen - context.len)
            let r := ckmAesXtsCrypt tok clear out outDataLen ctx.param key
              (!context.initialized) false context.iv encrypt
            if r.rc = .ok then
              let context :=
                { iv := r.iv
                  data := context.data.write 0 (inData.drop (inData.length - remain))
                  len := ⟨remain, remain_lt total⟩
                  initialized := true }
              ⟨r.rc, { ctx with context := context }, r.out, r.outDataLen⟩
            else
              ⟨r.rc, { ctx with context := { context with iv := r.iv } }, r.out, r.outDataLen⟩

/-- The call of `ckm_aes_xts_crypt` in `aes_xts_crypt_final`. -/
def aesXtsFinalStep (tok : XtsToken K) (encrypt : Bool) (ctx : XtsCtx) (key : KeyObject K)
    (out : Option Buf) (outDataLen : Nat) : CryptResult :=
  ckmAesXtsCrypt tok (ctx.context.data.read 0 ctx.context.len) out outDataLen ctx.param key
    (!ctx.context.initialized) true ctx.context.iv encrypt

/-- `aes_xts_crypt_final`, which is `aes_xts_encrypt_final` and `aes_xts_decrypt_final`. It
returns `CKR_OK` also when the step has failed. -/
def aesXtsCryptFinal (tok : XtsToken K) (lengthOnly encrypt : Bool) (ctx : XtsCtx)
    (out : Option Buf) (outDataLen : Nat) : PartResult XtsCtx :=
  if lengthOnly then ⟨.ok, ctx, out, ctx.context.len⟩
  else
    match tok.findInMap ctx.key with
    | .error f => ⟨f.rc, ctx, out, outDataLen⟩
    | .ok key =>
      let r := aesXtsFinalStep tok encrypt ctx key out outDataLen
      if r.rc = .ok then ⟨.ok, { ctx with context := .zero }, r.out, ctx.context.len⟩
      else ⟨.ok, { ctx with context := { ctx.context with iv := r.iv } }, r.out, r.outDataLen⟩

end

end OpenCryptoki.Common
