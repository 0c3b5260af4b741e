import OpenCryptoki.Common.Pkcs11

/-!
# `OpenCryptoki.Common.RsaPkcs`: the encryption blocks of PKCS #1 v1.5

The model of `rsa_format_block`, `rsa_parse_block_type_1` and `rsa_parse_block` in
`usr/lib/common/mech_rsa.c`.

`rng_generate` delivers the bytes of a list, one after the other, and fails when there are not
enough of them. So the loop that replaces zeros by other random bytes ends. The pointers are
not `NULL`. `rsa_parse_block_type_2` is a parameter of `rsaParseBlock`.
-/

set_option autoImplicit false

namespace OpenCryptoki.Common

open Lib

def PKCS_BT_1 : Nat := 1
def PKCS_BT_2 : Nat := 2

/-- `rng_generate` of `n` bytes: the bytes and the random bytes after them. -/
def rngGenerate (rand : List UInt8) (n : Nat) : Except CkRv (List UInt8 × List UInt8) :=
  if n ≤ rand.length then .ok (rand.take n, rand.drop n) else .error .functionFailed

/-! ### Formatting -/

/-- The loop of block type 2 for one byte: a zero is replaced until it is no zero. -/
def nonzeroByte (b : UInt8) : List UInt8 → Except CkRv (UInt8 × List UInt8)
  | [] => if b = 0 then .error .functionFailed else .ok (b, [])
  | r :: rand => if b = 0 then nonzeroByte r rand else .ok (b, r :: rand)

/-- The padding of block type 2 without zeros. An error comes with the padding at that time. -/
def nonzeroBytes : List UInt8 → List UInt8 → Except (CkRv × List UInt8) (List UInt8)
  | [], _         => .ok []
  | b :: bs, rand =>
    match nonzeroByte b rand with
    | .error rc      => .error (rc, b :: bs)
    | .ok (b', rand) =>
      match nonzeroBytes bs rand with
      | .error (rc, bs') => .error (rc, b' :: bs')
      | .ok bs'          => .ok (b' :: bs')

/-- The padding string of `rsa_format_block`. An error comes with what has been written. -/
def paddingString (rand : List UInt8) (inData : Buf) (paddingLen type : Nat) :
    Except (CkRv × List UInt8) (List UInt8) :=
  match type with
  | 0 =>
    if inData 0 = 0 then .error (.dataInvalid, [])
    else .ok (List.replicate paddingLen 0)
  | 1 => .ok (List.replicate paddingLen 0xff)
  | 2 =>
    match rngGenerate rand paddingLen with
    | .error rc         => .error (rc, [])
    | .ok (bytes, rand) => nonzeroBytes bytes rand
  | _ => .error (.dataInvalid, [])

/-- `rsa_format_block`: the return value and the memory at `out_data`. -/
def rsaFormatBlock (rand : List UInt8) (inData : Buf) (inDataLen : Nat) (out : Buf)
    (outDataLen type : Nat) : CkRv × Buf :=
  if outDataLen = 0 then (.functionFailed, out)
  else if inDataLen > outDataLen ∨ outDataLen - inDataLen < 11 then (.bufferTooSmall, out)
  else
    let paddingLen := outDataLen - 3 - inDataLen
    if (type = 1 ∨ type = 2) ∧ paddingLen < 8 then (.dataLenRange, out)
    else
      let out := out.write 0 [0, UInt8.ofNat type]
      match paddingString rand inData paddingLen type with
      | .error (rc, bytes) => (rc, out.write 2 bytes)
      | .ok padding        =>
        let out := out.write 2 padding
        let out := out.write (2 + padding.length) [0]
        (.ok, out.write (2 + padding.length + 1) (inData.read 0 inDataLen))

/-! ### Parsing -/

/-- The loop of `rsa_parse_block_type_1`, with `n` rounds left: `i` and `found`. -/
def scanType1 (inData : List UInt8) : Nat → Nat → Except CkRv (Nat × Bool)
  | 0, i     => .ok (i, false)
  | n + 1, i =>
    if inData.getD i 0 ≠ 0xff then
      if inData.getD i 0 = 0 then .ok (i + 1, true) else .error .encryptedDataInvalid
    else scanType1 inData n (i + 1)

/-- `rsa_parse_block_type_1`. -/
def rsaParseBlockType1 (inData : List UInt8) (out : Buf) (outDataLen : Nat) : MemResult :=
  let inDataLen := inData.length
  if inDataLen ≤ 11 then ⟨.functionFailed, out, outDataLen⟩
  else if inData.getD 0 0 ≠ 0 then ⟨.encryptedDataInvalid, out, outDataLen⟩
  else if inData.getD 1 0 ≠ UInt8.ofNat PKCS_BT_1 then ⟨.encryptedDataInvalid, out, outDataLen⟩
  else
    -- The loop runs up to the last byte but one.
    match scanType1 inData (inDataLen - 3) 2 with
    | .error rc      => ⟨rc, out, outDataLen⟩
    | .ok (i, found) =>
      let i := if found then i else i + 1
      if i - 3 < 8 then ⟨.encryptedDataInvalid, out, outDataLen⟩
      else if inDataLen < 2 then ⟨.encryptedDataInvalid, out, outDataLen⟩
      else if outDataLen < inDataLen - i then ⟨.bufferTooSmall, out, outDataLen⟩
      else ⟨.ok, out.write 0 (inData.drop i), inDataLen - i⟩

/-- `rsa_parse_block`. -/
def rsaParseBlock (rsaParseBlockType2 : List UInt8 → Buf → Nat → MemResult)
    (inData : List UInt8) (out : Buf) (outDataLen type : Nat) : MemResult :=
  if type = PKCS_BT_1 then rsaParseBlockType1 inData out outDataLen
  else if type = PKCS_BT_2 then rsaParseBlockType2 inData out outDataLen
  else ⟨.argumentsBad, out, outDataLen⟩

end OpenCryptoki.Common
