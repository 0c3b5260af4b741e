import Mathlib.Data.List.TakeWhile
import OpenCryptoki.Kmip.Ttlv

/-!
# `OpenCryptoki.Proofs.Kmip.Ttlv`: the TTLV encoding and its round trip

`ttlv o node` is the encoding as KMIP describes it: a tag of three bytes, the type, a length of
four bytes, and the value with zeros up to a whole block. All numbers are big-endian. The byte
order `o` is only that of booleans, so the encoding of KMIP is `ttlv .big`.

* `kmipNodeGetLength_eq`: the length computed in advance is that of the value.
* `kmipEncodeTtlv_eq`: the encoder writes `ttlv o`, with booleans in the byte order of the
  machine, and `valueLength_le_of_encode` says that it refuses a value that `BIO_write` does not
  take in one piece.
* `ttlv_eq_big_iff`: on a little-endian machine this is the encoding of KMIP if no boolean is true.
* `kmipDecodeTtlv_eq`: the decoder gives the tree back and reads exactly its bytes.

`ttlv_exact_iff` puts them together.
-/

set_option autoImplicit false

namespace OpenCryptoki.Proofs.Kmip

open Lib OpenCryptoki.Kmip List

/-! ### Trees -/

/-- Induction over a tree: an item, and a structure whose elements are known. -/
theorem kmipNode_induct {P : KmipNode → Prop} (item : ∀ tag v, P (.item tag v))
    (struct : ∀ tag elements, (∀ e ∈ elements, P e) → P (.struct tag elements)) :
    ∀ node, P node := by
  intro node
  refine @KmipNode.rec P (fun es => ∀ e ∈ es, P e) struct item ?_ ?_ node
  · intro e he
    cases he
  · intro e es he hes e' he'
    rcases mem_cons.mp he' with rfl | hmem
    · exact he
    · exact hes e' hmem

mutual

/-- The items of a tree. -/
def nodeItems : KmipNode → List KmipValue
  | .item _ v          => [v]
  | .struct _ elements => elementsItems elements

def elementsItems : List KmipNode → List KmipValue
  | []      => []
  | e :: es => nodeItems e ++ elementsItems es

end

mutual

/-- The depth of a tree. An item has depth one. -/
def nodeDepth : KmipNode → Nat
  | .item _ _          => 1
  | .struct _ elements => elementsDepth elements + 1

def elementsDepth : List KmipNode → Nat
  | []      => 0
  | e :: es => max (nodeDepth e) (elementsDepth es)

end

/-- A value in a structure is in one of its elements. -/
theorem mem_elementsItems {es : List KmipNode} {v : KmipValue} :
    v ∈ elementsItems es ↔ ∃ e ∈ es, v ∈ nodeItems e := by
  induction es with
  | nil => simp [elementsItems]
  | cons e es ih => simp [elementsItems, ih]

/-- An element is not deeper than all of them. -/
theorem depth_le_of_mem {es : List KmipNode} {e : KmipNode} (h : e ∈ es) :
    nodeDepth e ≤ elementsDepth es := by
  induction es with
  | nil => cases h
  | cons e' es ih =>
    rw [elementsDepth]
    rcases mem_cons.mp h with rfl | hmem
    · exact Nat.le_max_left _ _
    · exact le_trans (ih hmem) (Nat.le_max_right _ _)

/-! ### The encoding -/

/-- Zeros up to a whole block. -/
def zeroPad (bs : List UInt8) : List UInt8 := bs ++ List.replicate ((8 - bs.length % 8) % 8) 0

/-- The value of an item in a message, with booleans in the byte order `o`. -/
def itemBytes (o : ByteOrder) : KmipValue → List UInt8
  | .integer v | .enumeration v | .interval v          => wordBytes .big 4 v.toNat
  | .longInteger v | .dateTime v | .dateTimeExtended v => wordBytes .big 8 v.toNat
  | .bigInteger bn                                     => signedBytes (paddedBignumLength bn) bn
  | .boolean b                                         => wordBytes o 8 (if b then 1 else 0)
  | .textString bs | .byteString bs                    => bs

mutual

/-- The value of a node in a message. That of a structure is its elements. -/
def nodeValue (o : ByteOrder) : KmipNode → List UInt8
  | .item _ v          => itemBytes o v
  | .struct _ elements => elementsBytes o elements

def elementsBytes (o : ByteOrder) : List KmipNode → List UInt8
  | []      => []
  | e :: es => (ttlvHeader e.tag e.type (nodeValue o e).length ++ zeroPad (nodeValue o e))
      ++ elementsBytes o es

end

/-- The TTLV encoding of a node. -/
def ttlv (o : ByteOrder) (node : KmipNode) : List UInt8 :=
  ttlvHeader node.tag node.type (nodeValue o node).length ++ zeroPad (nodeValue o node)

section
variable (o : ByteOrder) (tag : BitVec 24)

/-- The value of a node that is not a structure. -/
@[simp] theorem value_item (v : KmipValue) :
    nodeValue o (.item tag v) = itemBytes o v := rfl

/-- The value of a structure is that of its elements. -/
@[simp] theorem value_struct (es : List KmipNode) :
    nodeValue o (.struct tag es) = elementsBytes o es := rfl

/-- No elements have no bytes. -/
@[simp] theorem elementsBytes_nil : elementsBytes o [] = [] := rfl

/-- Elements one after the other. -/
@[simp] theorem elementsBytes_cons (e : KmipNode) (es : List KmipNode) :
    elementsBytes o (e :: es) = ttlv o e ++ elementsBytes o es := rfl

/-! ### Lengths -/

/-- The padding is what is missing to 8 bytes. -/
theorem padLen_eq (len : Nat) : padLen len = (8 - len % 8) % 8 := by
  show (if len % 8 ≠ 0 then 8 - len % 8 else 0) = _
  split <;> omega

/-- Padding with zeros. -/
theorem zeroPad_eq (bs : List UInt8) : zeroPad bs = bs ++ replicate (padLen bs.length) 0 := by
  rw [zeroPad, padLen_eq]

/-- A header has 8 bytes. -/
@[simp] theorem length_ttlvHeader (type : UInt8) (length : Nat) :
    (ttlvHeader tag type length).length = 8 := by
  simp [ttlvHeader]

/-- A header, a value and its padding. -/
theorem length_ttlv (node : KmipNode) :
    (ttlv o node).length = 8 + (nodeValue o node).length + padLen (nodeValue o node).length := by
  rw [ttlv, zeroPad_eq, length_append, length_ttlvHeader, length_append,
    length_replicate, add_assoc]

/-- The value of a structure needs no padding. -/
theorem length_elementsBytes_mod (es : List KmipNode) : (elementsBytes o es).length % 8 = 0 := by
  induction es with
  | nil => rfl
  | cons e es ih =>
    have hmod : (ttlv o e).length % 8 = 0 := by
      rw [length_ttlv, padLen_eq]
      omega
    rw [elementsBytes_cons, length_append]
    omega

end

/-- The byte order does not change any length. -/
theorem length_value (o o' : ByteOrder) (node : KmipNode) :
    (nodeValue o node).length = (nodeValue o' node).length := by
  induction node using kmipNode_induct with
  | item tag v => cases v <;> simp [itemBytes]
  | struct tag es ih =>
    rw [value_struct, value_struct]
    induction es with
    | nil => rfl
    | cons e es ihes =>
      have he := ih e mem_cons_self
      have hes := ihes fun e' he' => ih e' (mem_cons_of_mem e he')
      rw [elementsBytes_cons, elementsBytes_cons, length_append, length_append,
        length_ttlv, length_ttlv, he, hes]

/-- The big integers of a tree are written as their two's complement form and read back. -/
def BigIntegersRoundTrip (node : KmipNode) : Prop :=
  ∀ bn, KmipValue.bigInteger bn ∈ nodeItems node →
    ∃ data, kmipEncodeBignum bn (paddedBignumLength bn) = .ok data
      ∧ data.length = paddedBignumLength bn
      ∧ signedValue data = bn
      ∧ kmipDecodeBignum (data ++ [0]) data.length = .ok bn

/-- No text of the tree contains a zero byte. -/
def TextsWithoutNul (node : KmipNode) : Prop :=
  ∀ text, KmipValue.textString text ∈ nodeItems node → (0 : UInt8) ∉ text

section
variable {o : ByteOrder} {tag : BitVec 24} {es : List KmipNode} {e : KmipNode}

/-- The same for an element. -/
theorem BigIntegersRoundTrip.element (h : BigIntegersRoundTrip (.struct tag es)) (he : e ∈ es) :
    BigIntegersRoundTrip e :=
  fun bn hbn => h bn (mem_elementsItems.mpr ⟨e, he, hbn⟩)

/-- The same for an element. -/
theorem TextsWithoutNul.element (h : TextsWithoutNul (.struct tag es)) (he : e ∈ es) :
    TextsWithoutNul e :=
  fun text ht => h text (mem_elementsItems.mpr ⟨e, he, ht⟩)

/-- An element is not longer than all of them. -/
theorem length_ttlv_le_of_mem (he : e ∈ es) : (ttlv o e).length ≤ (elementsBytes o es).length := by
  induction es with
  | nil => cases he
  | cons e' es ih =>
    rw [elementsBytes_cons, length_append]
    rcases mem_cons.mp he with rfl | hmem
    · exact le_self_add
    · exact le_trans (ih hmem) (le_add_self)

/-- An element of a structure has a shorter encoding. -/
theorem length_ttlv_element (he : e ∈ es) :
    (ttlv o e).length ≤ (ttlv o (.struct tag es)).length := by
  have hle := length_ttlv_le_of_mem (o := o) he
  rw [length_ttlv o (.struct tag es), value_struct]
  omega

end

/-- A text without a zero is as long as `strlen` says. -/
theorem strlen_eq {text : List UInt8} (h : (0 : UInt8) ∉ text) : strlen text = text.length := by
  rw [strlen, takeWhile_eq_self_iff.mpr]
  intro b hb
  rw [bne_iff_ne]
  rintro rfl
  exact h hb

/-- The length that the encoder computes is that of the value. -/
theorem valueGetLength_eq (o : ByteOrder) {v : KmipValue}
    (h : ∀ text, v = .textString text → (0 : UInt8) ∉ text) :
    valueGetLength v = (itemBytes o v).length := by
  cases v with
  | textString text => exact strlen_eq (h text rfl)
  | _ => simp [valueGetLength, itemBytes]

variable {node : KmipNode} {bio : List UInt8} {size : Option Nat}

/-- `kmip_node_get_length` gives the length of the value. -/
theorem kmipNodeGetLength_eq (o : ByteOrder) (htext : TextsWithoutNul node)
    (hlen : (ttlv o node).length < 2 ^ 64) :
    kmipNodeGetLength node = .ok (nodeValue o node).length := by
  induction node using kmipNode_induct with
  | item tag v =>
    rw [kmipNodeGetLength, value_item,
      valueGetLength_eq o fun text heq => htext text (by rw [heq]; exact mem_cons_self)]
  | struct tag es ih =>
    have hlen' : 0 + (elementsBytes o es).length < 2 ^ 64 := by
      rw [length_ttlv, value_struct] at hlen
      omega
    have helem : ∀ e ∈ es, kmipNodeGetLength e = .ok (nodeValue o e).length := fun e he =>
      ih e he (htext.element he) (lt_of_le_of_lt (length_ttlv_element he) hlen)
    clear ih htext hlen
    rw [kmipNodeGetLength, value_struct]
    suffices hloop : ∀ length, length + (elementsBytes o es).length < 2 ^ 64 →
        elementsGetLength length es = .ok (length + (elementsBytes o es).length) by
      rw [hloop 0 hlen', zero_add]
    clear hlen'
    induction es with
    | nil =>
      intro length _
      rfl
    | cons e es ihes =>
      intro length hlt
      have he := length_ttlv o e
      rw [elementsBytes_cons, length_append] at hlt
      -- Nothing overflows: every sum on the way is at most the final length.
      have hnext : sizeAdd (sizeAdd length (KMIP_TTLV_HEADER_LENGTH + (nodeValue o e).length))
          (padLen (nodeValue o e).length) = length + (ttlv o e).length := by
        show ((length + (8 + (nodeValue o e).length)) % 2 ^ 64 +
          padLen (nodeValue o e).length) % 2 ^ 64 = _
        rw [Nat.mod_eq_of_lt (a := length + (8 + (nodeValue o e).length)) (by omega),
          Nat.mod_eq_of_lt (by omega)]
        omega
      rw [elementsGetLength, helem e mem_cons_self]
      dsimp only [bind, Except.bind]
      rw [hnext, ensure, if_pos (by omega)]
      dsimp only [bind, Except.bind]
      rw [ihes (fun e' he' => helem e' (mem_cons_of_mem e he')) _ (by omega),
        elementsBytes_cons, length_append, add_assoc]

/-! ### Encoding -/

/-- A number is converted to big-endian order. -/
theorem wordBytes_htobe (o : ByteOrder) (n v : Nat) :
    wordBytes o n (htobe o n v) = wordBytes .big n v := by
  cases o with
  | big => rfl
  | little =>
    -- The bytes of the swapped number are the bytes of the number in the other order.
    have hswap := wordBytes_wordValue .little (wordBytes .big n v)
    rw [length_wordBytes] at hswap
    show wordBytes .little n (leValue (leBytes n v).reverse) = wordBytes .big n v
    exact hswap

/-- What `valueBytes` gives in the length of the node. -/
theorem valueBytes_eq (o : ByteOrder) {v : KmipValue} (hbig : ∀ bn, v = .bigInteger bn →
      kmipEncodeBignum bn (paddedBignumLength bn) = .ok (signedBytes (paddedBignumLength bn) bn)) :
    valueBytes o (itemBytes o v).length v = .ok (itemBytes o v) := by
  cases v with
  | bigInteger bn =>
    show kmipEncodeBignum bn (signedBytes _ bn).length = .ok (signedBytes _ bn)
    rw [length_signedBytes]
    exact hbig bn rfl
  | textString text | byteString bytes => exact congrArg Except.ok (take_length)
  | boolean b => rfl
  | _ => exact congrArg Except.ok (wordBytes_htobe o _ _)

/-- At most `INT_MAX` bytes can be written. -/
theorem bioWrite_of_le {data : List UInt8} (h : data.length ≤ INT_MAX) :
    bioWrite bio data = .ok (bio ++ data) := if_pos h

/-- A header can be written. -/
theorem bioWrite_header (bio : List UInt8) (tag : BitVec 24) (type : UInt8) (length : Nat) :
    bioWrite bio (ttlvHeader tag type length) = .ok (bio ++ ttlvHeader tag type length) :=
  bioWrite_of_le (by rw [length_ttlvHeader]; decide)

/-- The end of a node: the padding, and the number of bytes. -/
theorem writePadding_eq {bs : List UInt8} (h : 8 + bs.length + padLen bs.length < 2 ^ 64) :
    writePadding (bio ++ bs) bs.length
      = .ok (bio ++ zeroPad bs, 8 + bs.length + padLen bs.length) := by
  have hpad : padLen bs.length ≤ INT_MAX := by
    have hlt : padLen bs.length < 8 := by
      rw [padLen_eq]
      omega
    exact le_trans hlt.le (by decide)
  rw [writePadding, bioWrite_of_le (by rw [length_replicate]; exact hpad), zeroPad_eq, append_assoc]
  show Except.ok (_, ((8 + bs.length) % 2 ^ 64 + padLen bs.length) % 2 ^ 64) = _
  rw [Nat.mod_eq_of_lt (a := 8 + bs.length) (by omega), Nat.mod_eq_of_lt h]

section
variable {o : ByteOrder} {tag : BitVec 24} {v : KmipValue}

/-- The big integer of an item is written as its two's complement form. -/
theorem BigIntegersRoundTrip.encode_item (h : BigIntegersRoundTrip (.item tag v)) (bn : Int)
    (heq : v = .bigInteger bn) :
    kmipEncodeBignum bn (paddedBignumLength bn) = .ok (signedBytes (paddedBignumLength bn) bn) := by
  obtain ⟨data, henc, hlen, hvalue, -⟩ := h bn (by rw [heq]; exact mem_cons_self)
  rw [henc, eq_signedBytes hvalue, hlen]

/-- An item up to `BIO_write` of its value. -/
theorem encodeItem_eq (htext : TextsWithoutNul (.item tag v))
    (hbig : BigIntegersRoundTrip (.item tag v)) (hlen : (ttlv o (.item tag v)).length < 2 ^ 32)
    (bio : List UInt8) :
    encodeItem o tag v bio
      = bioWrite (bio ++ ttlvHeader tag v.type (itemBytes o v).length) (itemBytes o v) >>=
        fun bio' =>
          writePadding bio' (itemBytes o v).length := by
  have hget : valueGetLength v % 2 ^ 32 = (itemBytes o v).length := by
    rw [length_ttlv, value_item] at hlen
    rw [valueGetLength_eq o fun text heq => htext text (by rw [heq]; exact mem_cons_self),
      Nat.mod_eq_of_lt (by omega)]
  rw [encodeItem, hget, bioWrite_header, valueBytes_eq o hbig.encode_item]
  rfl

end

section
variable (o : ByteOrder) (htext : TextsWithoutNul node) (hbig : BigIntegersRoundTrip node)
  (hlen : (ttlv o node).length < 2 ^ 32)
include htext hbig hlen

/-- The encoder writes the encoding, with booleans in the byte order of the machine. -/
theorem kmipEncodeTtlv_eq (hint : ∀ v ∈ nodeItems node, (itemBytes o v).length ≤ INT_MAX)
    (bio : List UInt8) :
    kmipEncodeTtlv o node bio = .ok (bio ++ ttlv o node, (ttlv o node).length) := by
  induction node using kmipNode_induct generalizing bio with
  | item tag v =>
    rw [kmipEncodeTtlv, encodeItem_eq htext hbig hlen, bioWrite_of_le (hint v mem_cons_self),
      ok_bind]
    rw [length_ttlv, value_item] at hlen ⊢
    rw [writePadding_eq (by omega), ttlv, value_item, append_assoc]
    rfl
  | struct tag es ih =>
    have hget := kmipNodeGetLength_eq o htext (by omega)
    have hmod : (elementsBytes o es).length % 2 ^ 32 = (elementsBytes o es).length := by
      rw [length_ttlv, value_struct] at hlen
      exact Nat.mod_eq_of_lt (by omega)
    have helem : ∀ e ∈ es, ∀ bio, kmipEncodeTtlv o e bio
        = .ok (bio ++ ttlv o e, (ttlv o e).length) := fun e he =>
      ih e he (htext.element he) (hbig.element he)
        (lt_of_le_of_lt (length_ttlv_element he) hlen)
        fun v hv => hint v (mem_elementsItems.mpr ⟨e, he, hv⟩)
    -- The loop appends the elements and adds up their lengths.
    have hloop : ∀ (l : List KmipNode) (valueLen : Nat) (bio : List UInt8), (∀ e ∈ l, e ∈ es) →
        valueLen + (elementsBytes o l).length < 2 ^ 64 → encodeElements o l valueLen bio
          = .ok (bio ++ elementsBytes o l, valueLen + (elementsBytes o l).length) := by
      intro l
      induction l with
      | nil =>
        intro valueLen bio _ _
        rw [encodeElements, elementsBytes_nil, append_nil]
        rfl
      | cons e l ihl =>
        intro valueLen bio hsub hlt
        rw [elementsBytes_cons, length_append] at hlt
        have hadd : sizeAdd valueLen (ttlv o e).length = valueLen + (ttlv o e).length :=
          Nat.mod_eq_of_lt (by omega)
        rw [encodeElements, helem e (hsub e mem_cons_self), ok_bind]
        dsimp only
        rw [hadd, ihl _ _ (fun e' he' => hsub e' (mem_cons_of_mem e he')) (by omega),
          elementsBytes_cons, length_append, append_assoc, add_assoc]
    rw [kmipNodeGetLength, value_struct] at hget
    rw [kmipEncodeTtlv, hget, ok_bind]
    dsimp only
    rw [hmod, bioWrite_header, ok_bind,
      hloop es 0 _ (fun _ he => he) (by rw [length_ttlv, value_struct] at hlen; omega), ok_bind]
    rw [zero_add, ensure, if_pos rfl, ok_bind]
    rw [length_ttlv, value_struct] at hlen ⊢
    rw [writePadding_eq (by omega), ttlv, value_struct, append_assoc]
    rfl

/-- A value that `BIO_write` does not take makes the encoder fail. -/
theorem valueLength_le_of_encode {r : List UInt8 × Nat} (h : kmipEncodeTtlv o node bio = .ok r) :
    ∀ v ∈ nodeItems node, (itemBytes o v).length ≤ INT_MAX := by
  induction node using kmipNode_induct generalizing bio r with
  | item tag v =>
    intro v' hv'
    obtain rfl : v' = v := mem_singleton.mp hv'
    rw [kmipEncodeTtlv, encodeItem_eq htext hbig hlen, bioWrite] at h
    split at h
    · assumption
    · cases h
  | struct tag es ih =>
    have helem : ∀ e ∈ es, ∀ bio r, kmipEncodeTtlv o e bio = .ok r →
        ∀ v ∈ nodeItems e, (itemBytes o v).length ≤ INT_MAX := fun e he bio r =>
      ih e he (htext.element he) (hbig.element he)
        (lt_of_le_of_lt (length_ttlv_element he) hlen)
    -- Every element has been written when the loop is over.
    have hloop : ∀ (l : List KmipNode) (valueLen : Nat) (bio : List UInt8) (r : List UInt8 × Nat),
        encodeElements o l valueLen bio = .ok r →
          ∀ e ∈ l, ∃ bio r, kmipEncodeTtlv o e bio = .ok r := by
      intro l
      induction l with
      | nil =>
        intro _ _ _ _ e he
        cases he
      | cons e' l ihl =>
        intro valueLen bio r hr e he
        rw [encodeElements] at hr
        obtain ⟨first, hfirst, hr⟩ := bind_eq_ok.mp hr
        rcases mem_cons.mp he with rfl | hmem
        · exact ⟨bio, first, hfirst⟩
        · exact ihl _ _ _ hr e hmem
    rw [kmipEncodeTtlv] at h
    obtain ⟨len, -, h⟩ := bind_eq_ok.mp h
    obtain ⟨bio', -, h⟩ := bind_eq_ok.mp h
    obtain ⟨written, hes, -⟩ := bind_eq_ok.mp h
    intro v hv
    obtain ⟨e, he, hve⟩ := mem_elementsItems.mp hv
    obtain ⟨bio'', r', hr'⟩ := hloop es _ _ _ hes e he
    exact helem e he _ _ hr' v hve

end

/-! ### Booleans -/

section
variable (o : ByteOrder)

/-- On a little-endian machine only `false` has the right bytes. -/
theorem boolean_bytes_iff (b : Bool) :
    itemBytes o (.boolean b) = itemBytes .big (.boolean b) ↔ o = .big ∨ b = false := by
  cases o <;> cases b <;> decide

/-- What the machine writes for an item is its TTLV encoding, unless it is true. -/
theorem bytes_eq_big_iff (v : KmipValue) :
    itemBytes o v = itemBytes .big v ↔ o = .big ∨ v ≠ .boolean true := by
  cases v with
  | boolean b =>
    rw [boolean_bytes_iff]
    cases b <;> simp
  | _ => exact iff_of_true rfl (.inr (by simp))

/-- The encoding is right when the value is. -/
theorem ttlv_eq_big_iff_value (node : KmipNode) :
    ttlv o node = ttlv .big node ↔ nodeValue o node = nodeValue .big node := by
  have hlen := length_value o .big node
  rw [ttlv, ttlv, hlen, append_cancel_left_eq, zeroPad, zeroPad, hlen]
  exact ⟨fun h => (append_inj h hlen).1, fun h => by rw [h]⟩

/-- What the machine writes for a tree is its TTLV encoding, unless a boolean in it is true. -/
theorem ttlv_eq_big_iff (node : KmipNode) :
    ttlv o node = ttlv .big node ↔ o = .big ∨ KmipValue.boolean true ∉ nodeItems node := by
  rw [ttlv_eq_big_iff_value]
  induction node using kmipNode_induct with
  | item tag v =>
    rw [value_item, value_item, bytes_eq_big_iff]
    show _ ↔ o = .big ∨ KmipValue.boolean true ∉ [v]
    rw [mem_singleton, ne_comm]
  | struct tag es ih =>
    rw [value_struct, value_struct]
    show _ ↔ o = .big ∨ KmipValue.boolean true ∉ elementsItems es
    induction es with
    | nil => exact iff_of_true rfl (.inr not_mem_nil)
    | cons e es ihes =>
      have he := ih e mem_cons_self
      have hes := ihes fun e' he' => ih e' (mem_cons_of_mem e he')
      have hlen : (ttlv o e).length = (ttlv .big e).length := by
        rw [length_ttlv, length_ttlv, length_value o .big]
      -- Both halves have the same length on either side, so they are equal each for itself.
      have hsplit : elementsBytes o (e :: es) = elementsBytes .big (e :: es)
          ↔ nodeValue o e = nodeValue .big e ∧ elementsBytes o es = elementsBytes .big es := by
        rw [elementsBytes_cons, elementsBytes_cons, ← ttlv_eq_big_iff_value]
        exact ⟨fun h => append_inj h hlen, fun h => by rw [h.1, h.2]⟩
      rw [hsplit, he, hes, elementsItems, mem_append, not_or, or_and_left]

/-! ### Decoding -/

/-- A number is converted from big-endian order. -/
theorem betoh_wordValue (bs : List UInt8) :
    betoh o bs.length (wordValue o bs) = wordValue .big bs := by
  cases o with
  | big => rfl
  | little =>
    show wordValue .big (wordBytes .little bs.length (wordValue .little bs)) = _
    rw [wordBytes_wordValue]

/-- A number comes back from its bytes. -/
theorem readNumber_wordBytes (n : Nat) {w : Nat} (v : BitVec w) (h : 2 ^ w = 256 ^ n) :
    readNumber o w (wordBytes .big n v.toNat) = v := by
  have hlt : v.toNat < 256 ^ n := h ▸ v.isLt
  rw [readNumber, betoh_wordValue, wordValue_wordBytes_of_lt hlt, BitVec.ofNat_toNat,
    BitVec.setWidth_eq]

/-- The value of an item is read back. -/
theorem decodeValue_eq {v : KmipValue}
    (hbig : ∀ bn, v = .bigInteger bn → decodeBigInteger (itemBytes .big v) = .ok v) :
    decodeValue o v.type (itemBytes .big v) = .ok v := by
  cases v with
  | bigInteger bn => exact hbig bn rfl
  | textString text | byteString bytes => rfl
  | boolean b => cases o <;> cases b <;> decide
  | integer v => exact congrArg (Except.ok ∘ KmipValue.integer) (readNumber_wordBytes o 4 v rfl)
  | enumeration v =>
    exact congrArg (Except.ok ∘ KmipValue.enumeration) (readNumber_wordBytes o 4 v rfl)
  | interval v => exact congrArg (Except.ok ∘ KmipValue.interval) (readNumber_wordBytes o 4 v rfl)
  | longInteger v =>
    exact congrArg (Except.ok ∘ KmipValue.longInteger) (readNumber_wordBytes o 8 v rfl)
  | dateTime v => exact congrArg (Except.ok ∘ KmipValue.dateTime) (readNumber_wordBytes o 8 v rfl)
  | dateTimeExtended v =>
    exact congrArg (Except.ok ∘ KmipValue.dateTimeExtended) (readNumber_wordBytes o 8 v rfl)

end

/-- The bytes in front are read. -/
theorem bioRead_append (bs rest : List UInt8) :
    bioRead (bs ++ rest) bs.length = .ok (bs, rest) := by
  rw [bioRead, if_pos (by rw [length_append]; omega), take_left, drop_left]

/-- The check of the size that is left passes. -/
theorem checkSize_of_le {n : Nat} (h : ∀ s ∈ size, n ≤ s) :
    checkSize size n = .ok () := if_pos h

/-- The length of a value is one that its type may have. -/
theorem expectedLength_item {v : KmipValue} (h : (itemBytes .big v).length ≤ INT_MAX) :
    expectedLength v.type (itemBytes .big v).length = .ok (itemBytes .big v).length := by
  have hnot : ¬ INT_MAX < (itemBytes .big v).length := h.not_gt
  cases v with
  | bigInteger bn | textString text | byteString bytes => exact if_neg hnot
  | _ =>
    rw [itemBytes, length_wordBytes]
    rfl

/-- The padding behind a value. -/
theorem readPadding_eq (bs rest : List UInt8) (h : ∀ s ∈ size, padLen bs.length ≤ s) :
    readPadding (replicate (padLen bs.length) 0 ++ rest) size bs.length
      = .ok (rest, size.map (· - padLen bs.length)) := by
  have hread := bioRead_append (replicate (padLen bs.length) 0) rest
  rw [length_replicate] at hread
  rw [readPadding, hread, ok_bind]
  rw [checkSize_of_le h]
  rfl

/-- The loop over the elements, for a decoder that gives every one of them back. -/
theorem decodeElements_eq {decode : List UInt8 → Option Nat → Except Errno Decoded}
    {es : List KmipNode} (h : ∀ e ∈ es, ∀ rest s, (ttlv .big e).length ≤ s →
      decode (ttlv .big e ++ rest) (some s) = .ok (e, rest, some (s - (ttlv .big e).length)))
    (fuel : Nat) (hfuel : (elementsBytes .big es).length ≤ fuel) (rest : List UInt8) :
    decodeElements decode fuel (elementsBytes .big es).length (elementsBytes .big es ++ rest)
      = .ok (es, rest) := by
  induction es generalizing fuel with
  | nil => cases fuel <;> rfl
  | cons e es ih =>
    have hpos : 8 ≤ (ttlv .big e).length := by
      rw [length_ttlv]
      omega
    rw [elementsBytes_cons, length_append] at hfuel ⊢
    obtain ⟨fuel, rfl⟩ : ∃ k, fuel = k + 1 := ⟨fuel - 1, by omega⟩
    obtain ⟨n, hn⟩ : ∃ n, (ttlv .big e).length + (elementsBytes .big es).length = n + 1 :=
      ⟨(ttlv .big e).length + (elementsBytes .big es).length - 1, by omega⟩
    have hfirst := h e mem_cons_self (elementsBytes .big es ++ rest) (n + 1) (by omega)
    have hleft : n + 1 - (ttlv .big e).length = (elementsBytes .big es).length := by omega
    rw [hn, decodeElements, append_assoc, hfirst, ok_bind]
    dsimp only
    rw [Option.getD_some, hleft, ih (fun e' he' => h e' (mem_cons_of_mem e he')) fuel (by omega)]
    rfl

section
variable (tag : BitVec 24) (type : UInt8) {length : Nat}

/-- The tag of a header. -/
theorem take_ttlvHeader : (ttlvHeader tag type length).take 3 = wordBytes .big 3 tag.toNat :=
  take_left' (length_wordBytes .big 3 _)

/-- The type of a header. -/
theorem getD_ttlvHeader : (ttlvHeader tag type length).getD 3 0 = type := by
  have hlen : (wordBytes .big 3 tag.toNat).length = 3 := length_wordBytes .big 3 _
  rw [ttlvHeader, getD_append_right _ _ _ _ (by omega), hlen]
  rfl

/-- The length of a header. -/
theorem drop_ttlvHeader : (ttlvHeader tag type length).drop 4 = wordBytes .big 4 length := by
  rw [ttlvHeader, append_cons]
  exact drop_left' (by rw [length_append, length_wordBytes]; rfl)

end

/-- One level of the decoder, from the header to the padding. What is left is the value. -/
theorem kmipDecodeTtlv_header (o : ByteOrder) (level : Nat) (tag : BitVec 24) (type : UInt8)
    {length : Nat} (hlen : length < 2 ^ 32) (hexp : expectedLength type length = .ok length)
    (bio : List UInt8) (hsize : ∀ s ∈ size, 8 + length ≤ s) :
    kmipDecodeTtlv o (level + 1) (ttlvHeader tag type length ++ bio) size = (do
          let (value, bio) ← readValue type bio length
          let (bio, size) ← readPadding bio ((size.map (· - 8)).map (· - length)) length
          let (node, bio) ← decodeNode o (kmipDecodeTtlv o level) tag type length value bio
          return (node, bio, size)) := by
  have hread := bioRead_append (ttlvHeader tag type length) bio
  rw [length_ttlvHeader] at hread
  have hsize' : ∀ s ∈ size.map (· - 8), length ≤ s := by
    intro s hs
    obtain ⟨s', hs', rfl⟩ := Option.mem_map.mp hs
    have hle := hsize s' hs'
    omega
  rw [kmipDecodeTtlv]
  show (checkSize size 8 >>= fun _ => bioRead _ 8 >>= _) = _
  rw [checkSize_of_le fun s hs => le_trans (Nat.le_add_right 8 _) (hsize s hs), ok_bind,
    hread, ok_bind]
  dsimp only
  rw [take_ttlvHeader, getD_ttlvHeader, drop_ttlvHeader,
    wordValue_wordBytes_of_lt (show tag.toNat < 256 ^ 3 from tag.isLt), BitVec.ofNat_toNat,
    BitVec.setWidth_eq, wordValue_wordBytes_of_lt (show length < 256 ^ 4 from hlen), hexp, ok_bind,
    ensure, if_pos rfl, ok_bind]
  show (checkSize (size.map (· - 8)) length >>= _) = _
  rw [checkSize_of_le hsize']
  rfl

/-- The decoder gives the tree back and reads its bytes, and no others. -/
theorem kmipDecodeTtlv_eq (o : ByteOrder) (hbig : BigIntegersRoundTrip node)
    (hlen : (ttlv .big node).length < 2 ^ 32)
    (hint : ∀ v ∈ nodeItems node, (itemBytes .big v).length ≤ INT_MAX) {level : Nat}
    (hdepth : nodeDepth node ≤ level) (rest : List UInt8)
    (hsize : ∀ s ∈ size, (ttlv .big node).length ≤ s) :
    kmipDecodeTtlv o level (ttlv .big node ++ rest) size
      = .ok (node, rest, size.map (· - (ttlv .big node).length)) := by
  induction level generalizing node rest size with
  | zero => cases node <;> exact absurd hdepth (by simp [nodeDepth])
  | succ level ih =>
    have hfull := length_ttlv .big node
    have hhead : ∀ s ∈ size, 8 + (nodeValue .big node).length ≤ s := fun s hs =>
      le_trans (by omega) (hsize s hs)
    have hpad : ∀ s ∈ (size.map (· - 8)).map (· - (nodeValue .big node).length),
        padLen (nodeValue .big node).length ≤ s := by
      intro s hs
      obtain ⟨s', hs', rfl⟩ := Option.mem_map.mp hs
      obtain ⟨s'', hs'', rfl⟩ := Option.mem_map.mp hs'
      have hle := hsize s'' hs''
      omega
    have hafter : ((size.map (· - 8)).map (· - (nodeValue .big node).length)).map
        (· - padLen (nodeValue .big node).length) = size.map (· - (ttlv .big node).length) := by
      rw [Option.map_map, Option.map_map, length_ttlv]
      congr 1
      funext s
      show s - 8 - _ - _ = _
      omega
    cases node with
    | item tag v =>
      have hitem : v.type ≠ KMIP_TYPE_STRUCTURE := by
        cases v <;> rw [KmipValue.type] <;> decide
      have hexp := expectedLength_item (hint v mem_cons_self)
      have hvalue : decodeValue o v.type (itemBytes .big v) = .ok v := by
        apply decodeValue_eq
        rintro bn rfl
        obtain ⟨data, -, hdlen, hdvalue, hdec⟩ := hbig bn mem_cons_self
        have hdata : itemBytes .big (.bigInteger bn) = data := by
          show signedBytes _ bn = data
          rw [eq_signedBytes hdvalue, hdlen]
        rw [hdata, decodeBigInteger, hdec]
      rw [value_item] at hhead hpad hfull
      show kmipDecodeTtlv o (level + 1)
        ((ttlvHeader tag v.type (itemBytes .big v).length ++ zeroPad (itemBytes .big v)) ++ rest)
          size = _
      rw [append_assoc, kmipDecodeTtlv_header o level tag v.type (by omega) hexp _ hhead,
        readValue, if_neg hitem, zeroPad_eq, append_assoc, bioRead_append, ok_bind]
      dsimp only
      rw [readPadding_eq _ _ hpad, ok_bind]
      rw [decodeNode, if_neg hitem, hvalue, ← hafter]
      rfl
    | struct tag es =>
      have hzero : padLen (elementsBytes .big es).length = 0 := by
        have hmod := length_elementsBytes_mod .big es
        rw [padLen_eq]
        omega
      have helem : ∀ e ∈ es, ∀ rest s, (ttlv .big e).length ≤ s →
          kmipDecodeTtlv o level (ttlv .big e ++ rest) (some s)
            = .ok (e, rest, some (s - (ttlv .big e).length)) := by
        intro e he rest s hs
        have hdepth' := depth_le_of_mem he
        refine ih (hbig.element he) (lt_of_le_of_lt (length_ttlv_element he) hlen)
          (fun v hv => hint v (mem_elementsItems.mpr ⟨e, he, hv⟩)) ?_ rest ?_
        · rw [nodeDepth] at hdepth
          omega
        · intro s' hs'
          cases hs'
          exact hs
      have hloop := decodeElements_eq helem (elementsBytes .big es).length le_rfl rest
      rw [value_struct] at hhead hpad hfull
      show kmipDecodeTtlv o (level + 1) ((ttlvHeader tag KMIP_TYPE_STRUCTURE
        (elementsBytes .big es).length ++ zeroPad (elementsBytes .big es)) ++ rest) size = _
      -- A structure is whole blocks already: there is no padding, and the elements follow.
      have hbytes : zeroPad (elementsBytes .big es) ++ rest
          = replicate (padLen (elementsBytes .big es).length) 0
            ++ (elementsBytes .big es ++ rest) := by
        rw [zeroPad_eq, hzero]
        simp
      rw [append_assoc, kmipDecodeTtlv_header o level tag _ (by omega) (if_pos rfl) _ hhead,
        readValue, if_pos rfl, ok_bind, hbytes]
      dsimp only
      rw [readPadding_eq _ _ hpad, ok_bind]
      rw [decodeNode, if_pos rfl, hloop, ← hafter]
      rfl

/-! ### The round trip -/

/-- The encoder writes the TTLV encoding of the tree and reports its length, and from these bytes,
whatever follows them, the decoder gives the tree back. -/
def TtlvExact (o : ByteOrder) (node : KmipNode) : Prop :=
  kmipEncodeTtlv o node [] = .ok (ttlv .big node, (ttlv .big node).length)
    ∧ ∀ (level : Nat) (rest : List UInt8) (size : Option Nat), nodeDepth node ≤ level →
      (∀ s ∈ size, (ttlv .big node).length ≤ s) →
      kmipDecodeTtlv o level (ttlv .big node ++ rest) size
        = .ok (node, rest, size.map (· - (ttlv .big node).length))

/-- The byte order does not change the length. -/
theorem length_bytes (o o' : ByteOrder) (v : KmipValue) :
    (itemBytes o v).length = (itemBytes o' v).length := by
  cases v <;> simp [itemBytes]

/-- The encoding of a tree is right if and only if the machine is big-endian or no boolean is true,
and every value is short enough for `BIO_write`. -/
theorem ttlv_exact_iff (o : ByteOrder) (node : KmipNode) (htext : TextsWithoutNul node)
    (hbig : BigIntegersRoundTrip node) (hlen : (ttlv .big node).length < 2 ^ 32) :
    TtlvExact o node ↔ (o = .big ∨ KmipValue.boolean true ∉ nodeItems node)
      ∧ ∀ v ∈ nodeItems node, (itemBytes .big v).length ≤ INT_MAX := by
  have hlen' : (ttlv o node).length < 2 ^ 32 := by
    rw [length_ttlv, length_value o .big, ← length_ttlv]
    exact hlen
  constructor
  · rintro ⟨henc, -⟩
    have hint := valueLength_le_of_encode o htext hbig hlen' henc
    have hwritten := kmipEncodeTtlv_eq o htext hbig hlen' hint []
    rw [henc, Except.ok.injEq, Prod.mk.injEq, nil_append] at hwritten
    refine ⟨(ttlv_eq_big_iff o node).mp hwritten.1.symm, ?_⟩
    intro v hv
    rw [length_bytes .big o]
    exact hint v hv
  · rintro ⟨hbool, hint⟩
    have hsame := (ttlv_eq_big_iff o node).mpr hbool
    have henc := kmipEncodeTtlv_eq o htext hbig hlen'
      (fun v hv => by rw [length_bytes o .big]; exact hint v hv) []
    rw [hsame, nil_append] at henc
    exact ⟨henc, fun level rest size hdepth hsize =>
      kmipDecodeTtlv_eq o hbig hlen hint hdepth rest hsize⟩

/-- A structure with a date and a big integer, on a little-endian machine. -/
def sampleNode : KmipNode :=
  .struct 0x420078 [.item 0x420092 (.dateTime 1), .item 0x420052 (.bigInteger (-2))]

/-- A structure with values of several types. -/
theorem ttlv_exact_sample :
    TextsWithoutNul sampleNode ∧ BigIntegersRoundTrip sampleNode
      ∧ (ttlv .big sampleNode).length < 2 ^ 32 ∧ TtlvExact .little sampleNode := by
  have htext : TextsWithoutNul sampleNode := by
    intro text htext
    simp [sampleNode, nodeItems, elementsItems] at htext
  have hbig : BigIntegersRoundTrip sampleNode := by
    intro bn hbn
    obtain rfl : bn = -2 := by simpa [sampleNode, nodeItems, elementsItems] using hbn
    exact ⟨[255, 255, 255, 255, 255, 255, 255, 254], by decide⟩
  have hlen : (ttlv .big sampleNode).length < 2 ^ 32 := by decide
  refine ⟨htext, hbig, hlen, (ttlv_exact_iff .little sampleNode htext hbig hlen).mpr ⟨.inr ?_, ?_⟩⟩
  · decide
  · decide

/-- On a little-endian machine the boolean true is written with its bytes in the wrong order. -/
theorem ttlv_true_little_endian :
    kmipEncodeTtlv .little (.item 0x420008 (.boolean true)) []
        = .ok ([0x42, 0, 8, 6, 0, 0, 0, 8, 1, 0, 0, 0, 0, 0, 0, 0], 16)
      ∧ ttlv .big (.item 0x420008 (.boolean true))
        = [0x42, 0, 8, 6, 0, 0, 0, 8, 0, 0, 0, 0, 0, 0, 0, 1]
      ∧ ¬ TtlvExact .little (.item 0x420008 (.boolean true)) := by
  have henc : kmipEncodeTtlv .little (.item 0x420008 (.boolean true)) []
      = .ok ([0x42, 0, 8, 6, 0, 0, 0, 8, 1, 0, 0, 0, 0, 0, 0, 0], 16) := by decide
  refine ⟨henc, by decide, ?_⟩
  rintro ⟨hexact, -⟩
  rw [henc] at hexact
  exact absurd hexact (by decide)

end OpenCryptoki.Proofs.Kmip
