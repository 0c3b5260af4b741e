import OpenCryptoki.Common.Pkcs11

/-!
# `OpenCryptoki.Common.Asn1`: BER fields, `PrivateKeyInfo` and `SubjectPublicKeyInfo`

The model of the BER functions at the start of `usr/lib/common/asn1.c`, on a machine with 64-bit
`CK_ULONG`. The five functions that decode a field differ in the tag and in what they do with the
content, and share the reading of the length; the five that encode one share the writing of it.

The data to decode is a region that begins at offset 0, and a pointer into it is an offset. Every
byte is read through the region, so a read behind its end is a fault, whatever length the function
has been told. The encoders fill the buffers that they allocate. Allocations succeed. An encoder
without `length_only` is a function to bytes, and one with it, named `…Len`, a function to a length.
-/

set_option autoImplicit false

namespace OpenCryptoki.Common

open Lib

/-! ### Decoding a field -/

/-- What a decoder returns: `*data`, `*data_len` and `*field_len`. -/
structure BerField where
  data : Nat
  dataLen : Nat
  fieldLen : Nat
  deriving DecidableEq, Repr

/-- Up to three length octets, the first one in front. -/
def berLengthValue (octets : List UInt8) : Nat :=
  octets.foldl (fun len octet => (len <<< 8) ||| octet.toNat) 0

/-- The length of the field at `ptr`, in one of four forms, of which the decoder has `total`
bytes. -/
def berDecodeLength (mem : List UInt8) (ptr total : Nat) : Except Stop BerField := do
  let first ← access mem[ptr + 1]?
  if first &&& 0x80 = 0 then do
    let len := (first &&& 0x7F).toNat
    check (¬ 1 + 1 + len > total) .functionFailed
    .ok ⟨ptr + 2, len, 1 + 1 + len⟩
  else do
    let lengthOctets := (first &&& 0x7F).toNat
    check (¬ 1 + 1 + lengthOctets > total) .functionFailed
    -- More than three octets are refused, and so is the indefinite form.
    check (lengthOctets = 1 ∨ lengthOctets = 2 ∨ lengthOctets = 3) .functionFailed
    let octets ← access (readAt mem (ptr + 2) lengthOctets)
    let len := berLengthValue octets
    check (¬ 1 + (1 + lengthOctets) + len > total) .functionFailed
    .ok ⟨ptr + 2 + lengthOctets, len, 1 + (1 + lengthOctets) + len⟩

/-- A field with a tag that `tagOk` accepts. -/
def berDecodeField (tagOk : UInt8 → Bool) (mem : List UInt8) (ptr len : Nat) :
    Except Stop BerField := do
  check (¬ len < 2) .functionFailed
  let tag ← access mem[ptr]?
  check (tagOk tag) .functionFailed
  berDecodeLength mem ptr len

/-- `ber_decode_INTEGER`: a leading zero byte is not part of the data. -/
def berDecodeINTEGER (mem : List UInt8) (ptr len : Nat) : Except Stop BerField := do
  let field ← berDecodeField (· == 0x02) mem ptr len
  if field.dataLen > 0 then do
    let first ← access mem[field.data]?
    if first = 0x00 then
      .ok { field with data := field.data + 1, dataLen := field.dataLen - 1 }
    else .ok field
  else .ok field

/-- `ber_decode_OCTET_STRING`. -/
def berDecodeOCTETSTRING (mem : List UInt8) (ptr len : Nat) : Except Stop BerField :=
  berDecodeField (· == 0x04) mem ptr len

/-- `ber_decode_BIT_STRING`: the byte with the number of unused bits is part of the data. -/
def berDecodeBITSTRING (mem : List UInt8) (ptr len : Nat) : Except Stop BerField := do
  let field ← berDecodeField (· == 0x03) mem ptr len
  check (¬ field.dataLen < 1) .functionFailed
  .ok field

/-- `ber_decode_SEQUENCE`. -/
def berDecodeSEQUENCE (mem : List UInt8) (ptr len : Nat) : Except Stop BerField :=
  berDecodeField (· == 0x30) mem ptr len

/-- The class and form bits of a context-specific tag. -/
def choiceBits (constructed : Bool) : UInt8 := 0x80 ||| (if constructed then 0x20 else 0x00)

/-- `ber_decode_CHOICE`: the field and `*option`. -/
def berDecodeCHOICE (mem : List UInt8) (ptr len : Nat) (constructed : Bool) :
    Except Stop (BerField × Nat) := do
  let field ← berDecodeField (fun tag => tag &&& 0xE0 == choiceBits constructed) mem ptr len
  let tag ← access mem[ptr]?
  .ok (field, (tag &&& 0x1F).toNat)

/-! ### Encoding a field -/

/-- The tag and the length octets of a field. -/
def berHeader (tag : UInt8) (len : Nat) : List UInt8 :=
  if len < 128 then [tag, .ofNat len]
  else if len < 256 then [tag, 0x81, .ofNat len]
  else if len < 1 <<< 16 then [tag, 0x82, .ofNat (len >>> 8), .ofNat len]
  else [tag, 0x83, .ofNat (len >>> 16), .ofNat (len >>> 8), .ofNat len]

/-- The length of a field with `len` bytes of content. -/
def berEncodeFieldLen (len : Nat) : Except Stop Nat :=
  if len < 128 then .ok (1 + 1 + len)
  else if len < 256 then .ok (1 + (1 + 1) + len)
  else if len < 1 <<< 16 then .ok (1 + (1 + 2) + len)
  else if len < 1 <<< 24 then .ok (1 + (1 + 3) + len)
  else .error (.rc .functionFailed)

/-- A field, in a buffer of its length. -/
def berEncodeField (tag : UInt8) (content : List UInt8) : Except Stop (List UInt8) := do
  let len ← berEncodeFieldLen content.length
  let header := berHeader tag content.length
  let buf ← access (writeAt (List.replicate len 0) 0 header)
  access (writeAt buf header.length content)

/-- The number of zero bytes in front of an integer. Without the data, `ber_encode_INTEGER`
expects that it needs one. -/
def integerPadding (lengthOnly : Bool) (data : Option (List UInt8)) (dataLen : Nat) : Nat :=
  match data with
  | none       => if lengthOnly && dataLen ≠ 0 then 1 else 0
  | some bytes => if dataLen ≠ 0 && (bytes.headD 0 &&& 0x80) ≠ 0 then 1 else 0

/-- `ber_encode_INTEGER` with `length_only`. -/
def berEncodeINTEGERLen (data : Option (List UInt8)) (dataLen : Nat) : Except Stop Nat := do
  let padding := integerPadding true data dataLen
  check (¬ dataLen > 1 <<< 24 - 1 - padding) .functionFailed
  berEncodeFieldLen (dataLen + padding)

/-- `ber_encode_INTEGER`. -/
def berEncodeINTEGER (data : List UInt8) : Except Stop (List UInt8) := do
  let padding := integerPadding false (some data) data.length
  check (¬ data.length > 1 <<< 24 - 1 - padding) .functionFailed
  berEncodeField 0x02 (List.replicate padding 0 ++ data)

/-- `ber_encode_OCTET_STRING`. -/
def berEncodeOCTETSTRING (data : List UInt8) : Except Stop (List UInt8) := berEncodeField 0x04 data

/-- `ber_encode_BIT_STRING`. -/
def berEncodeBITSTRING (data : List UInt8) (unusedBits : UInt8) : Except Stop (List UInt8) := do
  check (¬ data.length ≥ 1 <<< 24 - 1) .functionFailed
  berEncodeField 0x03 (unusedBits :: data)

/-- `ber_encode_SEQUENCE`. -/
def berEncodeSEQUENCE (data : List UInt8) : Except Stop (List UInt8) := berEncodeField 0x30 data

/-- `ber_encode_CHOICE`. -/
def berEncodeCHOICE (option : UInt8) (data : List UInt8) (constructed : Bool) :
    Except Stop (List UInt8) :=
  berEncodeField (choiceBits constructed ||| option) data

/-! ### `PrivateKeyInfo` -/

/-- A pointer into the data and a length. -/
structure Slice where
  ptr : Nat
  len : Nat
  deriving DecidableEq, Repr

/-- `ber_decode_PrivateKeyInfo`: the content of the algorithm identifier and the private key. The
version is ignored. -/
def berDecodePrivateKeyInfo (mem : List UInt8) (dataLen : Nat) : Except Stop (Slice × Slice) := do
  check (¬ dataLen = 0) .functionFailed
  let buf ← berDecodeSEQUENCE mem 0 dataLen
  let ver ← berDecodeINTEGER mem buf.data buf.dataLen
  let offset := ver.fieldLen
  let alg ← berDecodeSEQUENCE mem (buf.data + offset) (ulongSub buf.dataLen offset)
  let offset := offset + alg.fieldLen
  let privKey ← berDecodeOCTETSTRING mem (buf.data + offset) (ulongSub buf.dataLen offset)
  .ok (⟨alg.data, alg.dataLen⟩, ⟨privKey.data, privKey.dataLen⟩)

/-- A piece that is copied to `buf + offset`: the buffer and the next offset. -/
def appendPiece (buf : List UInt8) (offset : Nat) (piece : List UInt8) :
    Except Stop (List UInt8 × Nat) := do
  let buf ← access (writeAt buf offset piece)
  .ok (buf, offset + piece.length)

/-- `ber_encode_PrivateKeyInfo`. -/
def berEncodePrivateKeyInfo (algorithmId privKey : List UInt8) : Except Stop (List UInt8) := do
  let verLen ← berEncodeINTEGERLen (some [0]) 1
  let keyLen ← berEncodeFieldLen privKey.length
  let buf := List.replicate (verLen + algorithmId.length + keyLen) 0
  let version ← berEncodeINTEGER [0]
  let (buf, len) ← appendPiece buf 0 version
  let (buf, len) ← appendPiece buf len algorithmId
  let octets ← berEncodeOCTETSTRING privKey
  let (buf, len) ← appendPiece buf len octets
  let content ← access (readAt buf 0 len)
  berEncodeSEQUENCE content

/-! ### `SubjectPublicKeyInfo` -/

/-- What `ber_decode_SPKI` returns. -/
structure Spki where
  algOid : Slice
  param : Slice
  key : Slice
  deriving DecidableEq, Repr

/-- `ber_decode_SPKI`. The algorithm identifier and the bit string are looked for in all the data
behind the header of the outer sequence. -/
def berDecodeSpki (mem : List UInt8) (spkiLen : Nat) : Except Stop Spki := do
  let outSeq ← berDecodeSEQUENCE mem 0 spkiLen
  let idSeq := outSeq.fieldLen - outSeq.dataLen
  let idSeqLen := ulongAdd (ulongSub spkiLen outSeq.fieldLen) outSeq.dataLen
  let data ← berDecodeSEQUENCE mem idSeq idSeqLen
  check (¬ data.dataLen < 2) .functionFailed
  let oidLen ← access mem[data.data + 1]?
  let algOidLen := oidLen.toNat + 2
  check (¬ algOidLen > data.dataLen) .functionFailed
  let bitStr ←
    berDecodeBITSTRING mem (idSeq + data.fieldLen) (ulongSub idSeqLen data.fieldLen)
  -- The byte with the number of unused bits is not part of the key.
  .ok ⟨⟨data.data, algOidLen⟩, ⟨data.data + algOidLen, data.dataLen - algOidLen⟩,
    ⟨bitStr.data + 1, bitStr.dataLen - 1⟩⟩

end OpenCryptoki.Common
