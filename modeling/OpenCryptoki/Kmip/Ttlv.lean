import OpenCryptoki.Kmip.Bignum

/-!
# `OpenCryptoki.Kmip.Ttlv`: messages of the KMIP client

The model of `kmip_decode_ttlv`, `kmip_node_get_length` and `kmip_encode_ttlv` in
`usr/sbin/p11kmip/kmipclient/ttlv.c`.

A `KmipNode` is a structure with its elements, or an item with one of the ten other types of
values. The name of a node, which this encoding does not use, and the pointers that chain the
nodes are left out. So is the field `length`: `kmip_encode_ttlv` computes it anew before it uses
it, except for a byte string, whose length it is.

A `BIO` is the bytes that have been written to it, or that are left to read. `BIO_write` and
`BIO_read` take the length as an `int`. The byte order `o` is that of the machine: numbers go
through memory on their way, and most of them through `htobe32` or `htobe64` first.

Allocations succeed and no pointer is `NULL`.
-/

set_option autoImplicit false

namespace OpenCryptoki.Kmip

open Lib

/-! ### Nodes -/

/-- The value of a node that is not a structure, with its type. Numbers are their bits. A text
string is the bytes in front of the terminating zero of its memory. -/
inductive KmipValue
  | integer (value : BitVec 32)
  | longInteger (value : BitVec 64)
  | bigInteger (value : Int)
  | enumeration (value : BitVec 32)
  | boolean (value : Bool)
  | textString (value : List UInt8)
  | byteString (value : List UInt8)
  | dateTime (value : BitVec 64)
  | interval (value : BitVec 32)
  | dateTimeExtended (value : BitVec 64)
  deriving DecidableEq

/-- `struct kmip_node`. A tag has three bytes. -/
inductive KmipNode
  | struct (tag : BitVec 24) (elements : List KmipNode)
  | item (tag : BitVec 24) (value : KmipValue)

def KMIP_TYPE_STRUCTURE : UInt8 := 0x01
def KMIP_TYPE_INTEGER : UInt8 := 0x02
def KMIP_TYPE_LONG_INTEGER : UInt8 := 0x03
def KMIP_TYPE_BIG_INTEGER : UInt8 := 0x04
def KMIP_TYPE_ENUMERATION : UInt8 := 0x05
def KMIP_TYPE_BOOLEAN : UInt8 := 0x06
def KMIP_TYPE_TEXT_STRING : UInt8 := 0x07
def KMIP_TYPE_BYTE_STRING : UInt8 := 0x08
def KMIP_TYPE_DATE_TIME : UInt8 := 0x09
def KMIP_TYPE_INTERVAL : UInt8 := 0x0A
def KMIP_TYPE_DATE_TIME_EXTENDED : UInt8 := 0x0B

/-- The field `type` of the node. -/
def KmipValue.type : KmipValue → UInt8
  | .integer _          => KMIP_TYPE_INTEGER
  | .longInteger _      => KMIP_TYPE_LONG_INTEGER
  | .bigInteger _       => KMIP_TYPE_BIG_INTEGER
  | .enumeration _      => KMIP_TYPE_ENUMERATION
  | .boolean _          => KMIP_TYPE_BOOLEAN
  | .textString _       => KMIP_TYPE_TEXT_STRING
  | .byteString _       => KMIP_TYPE_BYTE_STRING
  | .dateTime _         => KMIP_TYPE_DATE_TIME
  | .interval _         => KMIP_TYPE_INTERVAL
  | .dateTimeExtended _ => KMIP_TYPE_DATE_TIME_EXTENDED

def KmipNode.type : KmipNode → UInt8
  | .struct _ _ => KMIP_TYPE_STRUCTURE
  | .item _ v   => v.type

def KmipNode.tag : KmipNode → BitVec 24
  | .struct tag _ => tag
  | .item tag _   => tag

def KMIP_TTLV_HEADER_LENGTH : Nat := 8
def KMIP_TTLV_BLOCK_LENGTH : Nat := 8
def INT_MAX : Nat := 2 ^ 31 - 1

/-- The number of bytes that are missing to a whole block. -/
def padLen (len : Nat) : Nat :=
  if len % KMIP_TTLV_BLOCK_LENGTH ≠ 0 then
    KMIP_TTLV_BLOCK_LENGTH - len % KMIP_TTLV_BLOCK_LENGTH
  else 0

/-- Go on if the condition holds. -/
def ensure (p : Prop) [Decidable p] (e : Errno) : Except Errno Unit :=
  if p then .ok () else .error e

/-! ### Lengths -/

/-- The sum of two numbers of type `size_t`. -/
def sizeAdd (a b : Nat) : Nat := (a + b) % 2 ^ 64

/-- `strlen` of a text string. -/
def strlen (text : List UInt8) : Nat := (text.takeWhile (· != 0)).length

/-- `kmip_node_get_length` for an item. -/
def valueGetLength : KmipValue → Nat
  | .integer _ | .enumeration _ | .interval _                            => 4
  | .longInteger _ | .boolean _ | .dateTime _ | .dateTimeExtended _      => 8
  | .bigInteger bn                                                       => paddedBignumLength bn
  | .byteString bytes                                                    => bytes.length
  | .textString text                                                     => strlen text

mutual

/-- `kmip_node_get_length`. -/
def kmipNodeGetLength : KmipNode → Except Errno Nat
  | .item _ v          => .ok (valueGetLength v)
  | .struct _ elements => elementsGetLength 0 elements

/-- The loop over the elements of a structure, with the length so far. -/
def elementsGetLength : Nat → List KmipNode → Except Errno Nat
  | length, []      => .ok length
  | length, e :: es => do
    let len ← kmipNodeGetLength e
    let next := sizeAdd (sizeAdd length (KMIP_TTLV_HEADER_LENGTH + len)) (padLen len)
    ensure (length ≤ next) .eoverflow
    elementsGetLength next es

end

/-! ### Encoding -/

/-- `htobe32` and `htobe64` for a number of `n` bytes. -/
def htobe (o : ByteOrder) (n v : Nat) : Nat :=
  match o with
  | .little => wordValue .big (wordBytes .little n v)
  | .big    => v

/-- `be32toh` and `be64toh`. -/
def betoh (o : ByteOrder) (n v : Nat) : Nat := htobe o n v

/-- `BIO_write` of all of the data. -/
def bioWrite (bio data : List UInt8) : Except Errno (List UInt8) :=
  if data.length ≤ INT_MAX then .ok (bio ++ data) else .error .eio

/-- The tag, the type and the length in front of a value. -/
def ttlvHeader (tag : BitVec 24) (type : UInt8) (length : Nat) : List UInt8 :=
  wordBytes .big 3 tag.toNat ++ type :: wordBytes .big 4 length

/-- The value of an item in memory, from `value` on. A big integer is encoded in the length of the
node. A boolean is written as the machine stores it. -/
def valueBytes (o : ByteOrder) (length : Nat) : KmipValue → Except Errno (List UInt8)
  | .integer v | .enumeration v | .interval v             =>
    .ok (wordBytes o 4 (htobe o 4 v.toNat))
  | .longInteger v | .dateTime v | .dateTimeExtended v    =>
    .ok (wordBytes o 8 (htobe o 8 v.toNat))
  | .bigInteger bn                                        => kmipEncodeBignum bn length
  | .boolean b                                            =>
      .ok (wordBytes o 8 (if b then 1 else 0))
  | .textString text                                      => .ok (text.take length)
  | .byteString bytes                                     => .ok (bytes.take length)

/-- The padding behind a value of `valueLen` bytes, and the number of bytes of both with the
header. -/
def writePadding (bio : List UInt8) (valueLen : Nat) : Except Errno (List UInt8 × Nat) := do
  let bio ← bioWrite bio (List.replicate (padLen valueLen) 0)
  return (bio, sizeAdd (sizeAdd KMIP_TTLV_HEADER_LENGTH valueLen) (padLen valueLen))

/-- `kmip_encode_ttlv` for an item. The field `length` has 32 bits. -/
def encodeItem (o : ByteOrder) (tag : BitVec 24) (v : KmipValue) (bio : List UInt8) :
    Except Errno (List UInt8 × Nat) := do
  let length := valueGetLength v % 2 ^ 32
  let bio ← bioWrite bio (ttlvHeader tag v.type length)
  let value ← valueBytes o length v
  let bio ← bioWrite bio value
  writePadding bio value.length

mutual

/-- `kmip_encode_ttlv`. It returns what the `BIO` has then, and the number of bytes written. -/
def kmipEncodeTtlv (o : ByteOrder) : KmipNode → List UInt8 → Except Errno (List UInt8 × Nat)
  | .item tag v, bio          => encodeItem o tag v bio
  | .struct tag elements, bio => do
    let len ← elementsGetLength 0 elements
    let length := len % 2 ^ 32
    let bio ← bioWrite bio (ttlvHeader tag KMIP_TYPE_STRUCTURE length)
    let (bio, valueLen) ← encodeElements o elements 0 bio
    ensure (valueLen = length) .eio
    writePadding bio valueLen

/-- The loop over the elements of a structure, with the length that has been written so far. -/
def encodeElements (o : ByteOrder) :
    List KmipNode → Nat → List UInt8 → Except Errno (List UInt8 × Nat)
  | [], valueLen, bio      => .ok (bio, valueLen)
  | e :: es, valueLen, bio => do
    let (bio, elemLen) ← kmipEncodeTtlv o e bio
    encodeElements o es (sizeAdd valueLen elemLen) bio

end

/-! ### Decoding -/

/-- `BIO_read`, and what is left. -/
def bioRead (bio : List UInt8) (n : Nat) : Except Errno (List UInt8 × List UInt8) :=
  if n ≤ bio.length then .ok (bio.take n, bio.drop n) else .error .eio

/-- If the number of available bytes is given, `n` of them must be available. -/
def checkSize (size : Option Nat) (n : Nat) : Except Errno Unit :=
  ensure (∀ s ∈ size, n ≤ s) .emsgsize

/-- The length that a value of the type must have: any length for a string and a structure. -/
def expectedLength (type : UInt8) (length : Nat) : Except Errno Nat :=
  if type = KMIP_TYPE_STRUCTURE then .ok length
  else if type = KMIP_TYPE_BIG_INTEGER ∨ type = KMIP_TYPE_TEXT_STRING
      ∨ type = KMIP_TYPE_BYTE_STRING then
    if INT_MAX < length then .error .emsgsize else .ok length
  else if type = KMIP_TYPE_INTEGER ∨ type = KMIP_TYPE_ENUMERATION ∨ type = KMIP_TYPE_INTERVAL then
    .ok 4
  else if type = KMIP_TYPE_LONG_INTEGER ∨ type = KMIP_TYPE_BOOLEAN ∨ type = KMIP_TYPE_DATE_TIME
      ∨ type = KMIP_TYPE_DATE_TIME_EXTENDED then
    .ok 8
  else .error .ebadmsg

/-- The value of an item. A structure has none. -/
def readValue (type : UInt8) (bio : List UInt8) (valueLen : Nat) :
    Except Errno (List UInt8 × List UInt8) :=
  if type = KMIP_TYPE_STRUCTURE then .ok ([], bio) else bioRead bio valueLen

/-- The padding behind a value. It is read before it is known to be available. -/
def readPadding (bio : List UInt8) (size : Option Nat) (valueLen : Nat) :
    Except Errno (List UInt8 × Option Nat) := do
  let (_, bio) ← bioRead bio (padLen valueLen)
  checkSize size (padLen valueLen)
  return (bio, size.map (· - padLen valueLen))

/-- The number in a piece of memory, in the byte order of the message. -/
def readNumber (o : ByteOrder) (w : Nat) (value : List UInt8) : BitVec w :=
  BitVec.ofNat w (betoh o value.length (wordValue o value))

/-- `kmip_decode_bignum` of a value in memory that has one more byte, a zero. -/
def decodeBigInteger (value : List UInt8) : Except Errno KmipValue :=
  match kmipDecodeBignum (value ++ [0]) value.length with
  | .ok bn           => .ok (.bigInteger bn)
  | .error (.rc e)   => .error e
  | .error .fault    => .error .eio

/-- The value of an item of the type, from its bytes. -/
def decodeValue (o : ByteOrder) (type : UInt8) (value : List UInt8) : Except Errno KmipValue :=
  if type = KMIP_TYPE_INTEGER then .ok (.integer (readNumber o 32 value))
  else if type = KMIP_TYPE_LONG_INTEGER then .ok (.longInteger (readNumber o 64 value))
  else if type = KMIP_TYPE_BIG_INTEGER then decodeBigInteger value
  else if type = KMIP_TYPE_ENUMERATION then .ok (.enumeration (readNumber o 32 value))
  else if type = KMIP_TYPE_BOOLEAN then .ok (.boolean (wordValue o value != 0))
  else if type = KMIP_TYPE_TEXT_STRING then .ok (.textString value)
  else if type = KMIP_TYPE_BYTE_STRING then .ok (.byteString value)
  else if type = KMIP_TYPE_DATE_TIME then .ok (.dateTime (readNumber o 64 value))
  else if type = KMIP_TYPE_INTERVAL then .ok (.interval (readNumber o 32 value))
  else if type = KMIP_TYPE_DATE_TIME_EXTENDED then .ok (.dateTimeExtended (readNumber o 64 value))
  else .error .ebadmsg

/-- What `kmip_decode_ttlv` returns: the node, what is left to read, and the number of bytes that
are available then, if it is given. -/
abbrev Decoded := KmipNode × List UInt8 × Option Nat

/-- The loop over the elements of a structure while `valueLen` bytes of it are left. Every element
has a header, so `fuel` steps are enough if there are not fewer than bytes. -/
def decodeElements (decode : List UInt8 → Option Nat → Except Errno Decoded) :
    (fuel valueLen : Nat) → List UInt8 → Except Errno (List KmipNode × List UInt8)
  | _, 0, bio                   => .ok ([], bio)
  | 0, _ + 1, _                 => .error .emsgsize
  | fuel + 1, valueLen + 1, bio => do
    let (e, bio, left) ← decode bio (some (valueLen + 1))
    let (es, bio) ← decodeElements decode fuel (left.getD 0) bio
    return (e :: es, bio)

/-- The last part of `kmip_decode_ttlv`: the elements of a structure, or the value of an item. -/
def decodeNode (o : ByteOrder) (decode : List UInt8 → Option Nat → Except Errno Decoded)
    (tag : BitVec 24) (type : UInt8) (valueLen : Nat) (value bio : List UInt8) :
    Except Errno (KmipNode × List UInt8) :=
  if type = KMIP_TYPE_STRUCTURE then do
    let (elements, bio) ← decodeElements decode valueLen valueLen bio
    return (.struct tag elements, bio)
  else do
    let v ← decodeValue o type value
    return (.item tag v, bio)

/-- `kmip_decode_ttlv`. -/
def kmipDecodeTtlv (o : ByteOrder) : (maxNestingLevel : Nat) → List UInt8 → Option Nat →
    Except Errno Decoded
  | 0, _, _                      => .error .e2big
  | maxNestingLevel + 1, bio, size => do
    checkSize size KMIP_TTLV_HEADER_LENGTH
    let (ttlv, bio) ← bioRead bio KMIP_TTLV_HEADER_LENGTH
    let size := size.map (· - KMIP_TTLV_HEADER_LENGTH)
    let tag := BitVec.ofNat 24 (wordValue .big (ttlv.take 3))
    let type := ttlv.getD 3 0
    let length := wordValue .big (ttlv.drop 4)
    let valueLen ← expectedLength type length
    ensure (length = valueLen) .ebadmsg
    checkSize size length
    let (value, bio) ← readValue type bio valueLen
    let (bio, size) ← readPadding bio (size.map (· - valueLen)) valueLen
    let (node, bio) ← decodeNode o (kmipDecodeTtlv o maxNestingLevel) tag type valueLen value bio
    return (node, bio, size)

end OpenCryptoki.Kmip
