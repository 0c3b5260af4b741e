import OpenCryptoki.Common.Pkcs11

/-!
# `OpenCryptoki.Common.Template`: attributes, templates and the stored form of an object

The model of the serialisation in `usr/lib/common/template.c`, `attributes.c` and `object.c`,
on a machine with 64-bit `CK_ULONG` and any byte order. Numbers of type `CK_ULONG` are natural
numbers. A `CK_ULONG_32` is written as four bytes, which keeps the low 32 bits.

An attribute in memory is a type and a value. The value of a type with array attributes is a
list of attributes, and that of any other type is bytes; the constructors of `CkAttribute` carry
that distinction. In the stored form an attribute is a `CK_ATTRIBUTE_32` of three words, followed
by the value. Six `CK_ULONG` types are stored with a value of four bytes.

Allocations succeed. Flattening returns `none` when it would read past the end of a value or
write past the end of the buffer. Unflattening reads a buffer through a pointer, which is an
offset.
-/

set_option autoImplicit false

namespace OpenCryptoki.Common

open Lib

/-! ### Attribute types -/

def CKA_CLASS : Nat := 0x00000000
def CKA_CERTIFICATE_TYPE : Nat := 0x00000080
def CKA_KEY_TYPE : Nat := 0x00000100
def CKA_MODULUS_BITS : Nat := 0x00000121
def CKA_VALUE_BITS : Nat := 0x00000160
def CKA_VALUE_LEN : Nat := 0x00000161
def CKF_ARRAY_ATTRIBUTE : Nat := 0x40000000
def CKA_VENDOR_DEFINED : Nat := 0x80000000
def CKA_WRAP_TEMPLATE : Nat := CKF_ARRAY_ATTRIBUTE ||| 0x00000211
def CKA_UNWRAP_TEMPLATE : Nat := CKF_ARRAY_ATTRIBUTE ||| 0x00000212
def CKA_DERIVE_TEMPLATE : Nat := CKF_ARRAY_ATTRIBUTE ||| 0x00000213
def CKA_ENCAPSULATE_TEMPLATE : Nat := CKF_ARRAY_ATTRIBUTE ||| 0x0000062A
def CKA_DECAPSULATE_TEMPLATE : Nat := CKF_ARRAY_ATTRIBUTE ||| 0x0000062B

/-- `is_attribute_attr_array`. The types are all defined, so the test of
`is_attribute_defined` in front of the switch does not matter. -/
def isAttributeAttrArray (type : Nat) : Bool :=
  type = CKA_WRAP_TEMPLATE || type = CKA_UNWRAP_TEMPLATE || type = CKA_DERIVE_TEMPLATE ||
    type = CKA_ENCAPSULATE_TEMPLATE || type = CKA_DECAPSULATE_TEMPLATE

def flattenUlongAttributeAsUlong32 (type : Nat) : Bool :=
  type = CKA_CLASS || type = CKA_KEY_TYPE || type = CKA_MODULUS_BITS || type = CKA_VALUE_BITS ||
    type = CKA_CERTIFICATE_TYPE || type = CKA_VALUE_LEN

/-- `CK_ATTRIBUTE` with the value that it points to. -/
inductive CkAttribute
  | plain (type : Nat) (value : List UInt8) (h : isAttributeAttrArray type = false)
  | array (type : Nat) (elements : List CkAttribute) (h : isAttributeAttrArray type = true)

def CkAttribute.type : CkAttribute → Nat
  | .plain type _ _ => type
  | .array type _ _ => type

def SIZEOF_CK_ATTRIBUTE_32 : Nat := 12
def SIZEOF_CK_ULONG_32 : Nat := 4
def SIZEOF_CK_ULONG : Nat := 8

/-! ### Flattening -/

mutual

def attributeGetCompressedSize : CkAttribute → Nat
  | .plain type value _ =>
      SIZEOF_CK_ATTRIBUTE_32 +
        if flattenUlongAttributeAsUlong32 type && value.length ≠ 0 then SIZEOF_CK_ULONG_32
        else value.length
  | .array _ elements _ => SIZEOF_CK_ATTRIBUTE_32 + attributesGetCompressedSize elements

/-- The loop that adds up the sizes of some attributes. Over the list of a template it is
`template_get_compressed_size`. -/
def attributesGetCompressedSize : List CkAttribute → Nat
  | [] => 0
  | a :: as => attributeGetCompressedSize a + attributesGetCompressedSize as

end

/-- The bytes of a `CK_ATTRIBUTE_32` whose `pValue` is 0. -/
def attribute32Bytes (o : ByteOrder) (type ulValueLen : Nat) : List UInt8 :=
  wordBytes o 4 type ++ wordBytes o 4 0 ++ wordBytes o 4 ulValueLen

/-- `*((CK_ULONG *) pValue)`. -/
def readUlong (o : ByteOrder) (value : List UInt8) : Option Nat :=
  if SIZEOF_CK_ULONG ≤ value.length then some (wordValue o (value.take SIZEOF_CK_ULONG)) else none

/-- How an attribute with a value of bytes is flattened, in a template and in an array. -/
def plainFlatten (o : ByteOrder) (type : Nat) (value : List UInt8) : Option (List UInt8) :=
  if flattenUlongAttributeAsUlong32 type && value.length ≠ 0 then
    (readUlong o value).map fun val =>
      attribute32Bytes o type SIZEOF_CK_ULONG_32 ++ wordBytes o 4 val
  else some (attribute32Bytes o type value.length ++ value)

mutual

/-- What is written for an attribute. For an array it is `attribute_array_flatten`. -/
def attributeFlatten (o : ByteOrder) : CkAttribute → Option (List UInt8)
  | .plain type value _ => plainFlatten o type value
  | .array type elements _ =>
      (attributesFlatten o elements).map fun body =>
        attribute32Bytes o type (attributesGetCompressedSize elements) ++ body

/-- The loop that writes some attributes. Over the list of a template it is
`template_flatten`. -/
def attributesFlatten (o : ByteOrder) : List CkAttribute → Option (List UInt8)
  | [] => some []
  | a :: as => do
      let bytes ← attributeFlatten o a
      let rest ← attributesFlatten o as
      some (bytes ++ rest)

end

/-- An object as it is stored: its class, its name and the attributes of its template. -/
structure CkObject where
  cls : Nat
  name : Vector UInt8 8
  template : List CkAttribute

/-- What `object_flatten` writes, when `template_flatten` writes `body`. -/
def objectBytes (o : ByteOrder) (obj : CkObject) (body : List UInt8) : List UInt8 :=
  wordBytes o 4 obj.cls ++ wordBytes o 4 obj.template.length ++ obj.name.toList ++ body

/-- `object_flatten`: the buffer and its length. -/
def objectFlatten (o : ByteOrder) (obj : CkObject) : Option (List UInt8 × Nat) := do
  let totalLen := attributesGetCompressedSize obj.template + 4 + 4 + 8
  let body ← attributesFlatten o obj.template
  let written := objectBytes o obj body
  -- The buffer has `totalLen` bytes, which are cleared before they are written.
  if written.length ≤ totalLen then
    some (written ++ List.replicate (totalLen - written.length) 0, totalLen)
  else none

/-! ### Unflattening -/

/-- `CK_ATTRIBUTE_32`, without the pointer, which is not used. -/
structure CkAttribute32 where
  type : Nat
  ulValueLen : Nat

/-- The `CK_ATTRIBUTE_32` at a place of the buffer. -/
def readAttribute32 (o : ByteOrder) (data : Buf) (ptr : Nat) : CkAttribute32 where
  type := wordValue o (data.read ptr 4)
  ulValueLen := wordValue o (data.read (ptr + 8) 4)

/-- The value of an attribute that is not an array, as it is unflattened: the four bytes of a
narrowed type are widened. -/
def plainValue (o : ByteOrder) (data : Buf) (ptr : Nat) (a : CkAttribute32) : List UInt8 :=
  if flattenUlongAttributeAsUlong32 a.type && a.ulValueLen ≠ 0 then
    wordBytes o SIZEOF_CK_ULONG (wordValue o (data.read (ptr + SIZEOF_CK_ATTRIBUTE_32) 4))
  else data.read (ptr + SIZEOF_CK_ATTRIBUTE_32) a.ulValueLen

mutual

/-- `attribute_array_unflatten`: the elements, and the pointer behind them. -/
def attributeArrayUnflatten (o : ByteOrder) (data : Buf) (buf bufLen : Nat) :
    Except CkRv (List CkAttribute × Nat) :=
  if bufLen < SIZEOF_CK_ATTRIBUTE_32 then .error .functionFailed
  else
    let a1 := readAttribute32 o data buf
    if isAttributeAttrArray a1.type = false then .error .attributeTypeInvalid
    else if bufLen - SIZEOF_CK_ATTRIBUTE_32 < a1.ulValueLen then .error .functionFailed
    else
      attributeArrayLoop o data a1.ulValueLen 0 (buf + SIZEOF_CK_ATTRIBUTE_32)
        (bufLen - SIZEOF_CK_ATTRIBUTE_32)
termination_by 2 * bufLen
decreasing_by all_goals simp +zetaDelta only [SIZEOF_CK_ATTRIBUTE_32] at *; omega

/-- The loop of `attribute_array_unflatten`. -/
def attributeArrayLoop (o : ByteOrder) (data : Buf) (ulValueLen ofs ptr bufLen : Nat) :
    Except CkRv (List CkAttribute × Nat) :=
  if ofs < ulValueLen then
    if bufLen < SIZEOF_CK_ATTRIBUTE_32 then .error .functionFailed
    else
      let a2 := readAttribute32 o data ptr
      let size := SIZEOF_CK_ATTRIBUTE_32 + a2.ulValueLen
      if bufLen < size then .error .functionFailed
      else if h : isAttributeAttrArray a2.type then do
        let (elements, ptr') ← attributeArrayUnflatten o data ptr size
        let (attrs, ptr'') ← attributeArrayLoop o data ulValueLen (ofs + size) ptr' (bufLen - size)
        .ok (.array a2.type elements h :: attrs, ptr'')
      else if flattenUlongAttributeAsUlong32 a2.type && a2.ulValueLen > 0 &&
          bufLen < SIZEOF_CK_ATTRIBUTE_32 + SIZEOF_CK_ULONG_32 then .error .functionFailed
      else do
        let value := plainValue o data ptr a2
        let (attrs, ptr'') ←
          attributeArrayLoop o data ulValueLen (ofs + size) (ptr + size) (bufLen - size)
        .ok (.plain a2.type value (Bool.eq_false_iff.mpr h) :: attrs, ptr'')
  else .ok ([], ptr)
termination_by 2 * bufLen + 1
decreasing_by all_goals simp +zetaDelta only [SIZEOF_CK_ATTRIBUTE_32] at *; omega

end

/-- `template_update_attribute`: the first attribute of the same type is removed
(`template_remove_attribute`), and the new one is put in front. -/
def templateUpdateAttribute (tmpl : List CkAttribute) (a : CkAttribute) : List CkAttribute :=
  a :: tmpl.eraseP fun b => b.type = a.type

/-- The loop of `template_unflatten_withSize`, for a buffer that ends before `bufEnd`. -/
def templateUnflattenLoop (o : ByteOrder) (data : Buf) (bufEnd : Nat) :
    Nat → Nat → List CkAttribute → Except CkRv (List CkAttribute)
  | 0, _, tmpl => .ok tmpl
  | n + 1, ptr, tmpl =>
      if ptr + SIZEOF_CK_ATTRIBUTE_32 > bufEnd then .error .functionFailed
      else
        let a1 := readAttribute32 o data ptr
        let size := SIZEOF_CK_ATTRIBUTE_32 + a1.ulValueLen
        if h : isAttributeAttrArray a1.type then
          if ptr + size > bufEnd then .error .functionFailed
          else do
            let (attrs, ptr') ← attributeArrayUnflatten o data ptr size
            templateUnflattenLoop o data bufEnd n ptr'
              (templateUpdateAttribute tmpl (.array a1.type attrs h))
        else
          let needed :=
            if flattenUlongAttributeAsUlong32 a1.type && a1.ulValueLen ≠ 0 then
              SIZEOF_CK_ATTRIBUTE_32 + SIZEOF_CK_ULONG_32
            else size
          if ptr + needed > bufEnd then .error .functionFailed
          else
            templateUnflattenLoop o data bufEnd n (ptr + size)
              (templateUpdateAttribute tmpl
                (.plain a1.type (plainValue o data ptr a1) (Bool.eq_false_iff.mpr h)))

def templateUnflattenWithSize (o : ByteOrder) (data : Buf) (buf count bufSize : Nat) :
    Except CkRv (List CkAttribute) :=
  templateUnflattenLoop o data (buf + bufSize) count buf []

/-- `strrchr(fname, '/') + 1`: what follows the last slash. -/
def lastPathElement : List UInt8 → Option (List UInt8)
  | [] => none
  | c :: cs =>
      match lastPathElement cs with
      | some e => some e
      | none => if c = 47 then some cs else none

/-- The object name must be the last path element of the file name, if there is one. -/
def nameMatches (name : Vector UInt8 8) : Option (List UInt8) → Bool
  | none => true
  | some fname =>
      match lastPathElement fname with
      | none => false
      | some objName => objName.length = 8 && name.toList = objName

/-- `object_restore_withSize` without a policy. With `replace` the template of an existing object
is reloaded, and without it there is a new object. -/
def objectRestoreWithSize (o : ByteOrder) (data : Buf) (dataSize : Nat)
    (fname : Option (List UInt8)) (replace : Option CkObject) : Except CkRv CkObject :=
  if dataSize < 4 + 4 + 8 then .error .functionFailed
  else
    let cls := wordValue o (data.read 0 4)
    let count := wordValue o (data.read 4 4)
    let name := Vector.ofFn fun i : Fin 8 => data (8 + i)
    if nameMatches name fname then do
      let tmpl ← templateUnflattenWithSize o data 16 count (dataSize - 16)
      .ok (match replace with
        | none => { cls := cls, name := name, template := tmpl }
        | some obj => { obj with template := tmpl })
    else .error .functionFailed

end OpenCryptoki.Common
