import Mathlib.Algebra.Order.Ring.Nat
import Mathlib.Data.List.Basic

/-!
# `OpenCryptoki.Lib.Tlv`: fields with a tag and a length

A field of BER is a tag, a length and a content of that length. `LengthOctets h n` says that the
bytes `h` stand for the length `n`: one byte below 128, or a byte that counts one, two or three
bytes of a number. A length has up to four such forms. `lengthOctets n` is the shortest one.

`Tlv tag content rest xs` says that `xs` begins with a field and goes on with `rest`. The bytes
determine the content and the rest: `Tlv.unique`.
-/

set_option autoImplicit false

namespace OpenCryptoki.Lib

open List

/-- The bytes of a length of up to three bytes. -/
inductive LengthOctets : List UInt8 → Nat → Prop
  | short (a : UInt8) (h : a.toNat < 128) : LengthOctets [a] a.toNat
  | one (a : UInt8) : LengthOctets [0x81, a] a.toNat
  | two (a b : UInt8) : LengthOctets [0x82, a, b] (a.toNat * 256 + b.toNat)
  | three (a b c : UInt8) :
      LengthOctets [0x83, a, b, c] ((a.toNat * 256 + b.toNat) * 256 + c.toNat)

/-- The shortest form. -/
def lengthOctets (n : Nat) : List UInt8 :=
  if n < 128 then [.ofNat n]
  else if n < 256 then [0x81, .ofNat n]
  else if n < 65536 then [0x82, .ofNat (n / 256), .ofNat n]
  else [0x83, .ofNat (n / 65536), .ofNat (n / 256), .ofNat n]

/-- A length in front of a list, and what follows it. -/
def splitLength : List UInt8 → Option (Nat × List UInt8)
  | 0x81 :: a :: xs => some (a.toNat, xs)
  | 0x82 :: a :: b :: xs => some (a.toNat * 256 + b.toNat, xs)
  | 0x83 :: a :: b :: c :: xs => some ((a.toNat * 256 + b.toNat) * 256 + c.toNat, xs)
  | a :: xs => some (a.toNat, xs)
  | [] => none

namespace LengthOctets

variable {h h' xs ys : List UInt8} {n n' : Nat}

section
variable (hn : LengthOctets h n)
include hn

/-- The length octets are read, and nothing behind them. -/
theorem splitLength_append (xs : List UInt8) : splitLength (h ++ xs) = some (n, xs) := by
  cases hn with
  | short a ha =>
    show splitLength (a :: xs) = _
    unfold splitLength
    split
    all_goals simp_all
  | one a | two a b | three a b c => rfl

/-- A length has at most three bytes. -/
theorem lt : n < 2 ^ 24 := by
  cases hn with
  | short a ha => omega
  | one a => have := a.toNat_lt; omega
  | two a b => have := a.toNat_lt; have := b.toNat_lt; omega
  | three a b c => have := a.toNat_lt; have := b.toNat_lt; have := c.toNat_lt; omega

/-- There is at least one length octet. -/
theorem length_pos : 0 < h.length := by
  cases hn <;> exact Nat.succ_pos _

/-- The first byte says how many there are, so the same bytes are the same length. -/
theorem unique (hn' : LengthOctets h' n') (heq : h ++ xs = h' ++ ys) :
    h = h' ∧ n = n' ∧ xs = ys := by
  have hsplit := splitLength_append hn xs
  rw [heq, splitLength_append hn' ys] at hsplit
  cases hsplit
  exact ⟨append_cancel_right heq, rfl, rfl⟩

/-- The first byte, and how many follow it. -/
theorem first :
    ∃ a o, h = a :: o ∧
      (a.toNat < 128 ∧ o.length = 0 ∨ a.toNat = 128 + o.length ∧ 1 ≤ o.length ∧ o.length ≤ 3) := by
  cases hn with
  | short a ha => exact ⟨a, [], rfl, .inl ⟨ha, rfl⟩⟩
  | one a => exact ⟨0x81, [a], rfl, .inr (by simp)⟩
  | two a b => exact ⟨0x82, [a, b], rfl, .inr (by simp)⟩
  | three a b c => exact ⟨0x83, [a, b, c], rfl, .inr (by simp)⟩

end

end LengthOctets

/-- A number below 256 as a byte. -/
theorem toNat_ofNat_of_lt {n : Nat} (h : n < 256) : (UInt8.ofNat n).toNat = n := by
  rw [UInt8.toNat_ofNat', Nat.mod_eq_of_lt h]

/-- The octets that are written for a length stand for it. -/
theorem lengthOctets_spec {n : Nat} (hn : n < 2 ^ 24) : LengthOctets (lengthOctets n) n := by
  unfold lengthOctets
  split
  · next h =>
    have hbyte := toNat_ofNat_of_lt (n := n) (by omega)
    have := LengthOctets.short (.ofNat n) (by omega)
    rwa [hbyte] at this
  · split
    · next h =>
      have := LengthOctets.one (.ofNat n)
      rwa [toNat_ofNat_of_lt h] at this
    · split
      · next h =>
        have := LengthOctets.two (.ofNat (n / 256)) (.ofNat n)
        rw [toNat_ofNat_of_lt (by omega), UInt8.toNat_ofNat'] at this
        rwa [show n / 256 * 256 + n % 2 ^ 8 = n by omega] at this
      · have := LengthOctets.three (.ofNat (n / 65536)) (.ofNat (n / 256)) (.ofNat n)
        rw [toNat_ofNat_of_lt (by omega), UInt8.toNat_ofNat', UInt8.toNat_ofNat'] at this
        rwa [show (n / 65536 * 256 + n / 256 % 2 ^ 8) * 256 + n % 2 ^ 8 = n by omega] at this

/-- The number of octets that are written. -/
theorem length_lengthOctets (n : Nat) : (lengthOctets n).length
    = if n < 128 then 1 else if n < 256 then 2 else if n < 65536 then 3 else 4 := by
  unfold lengthOctets
  split_ifs <;> rfl

/-- A shorter content needs no longer header. -/
theorem length_lengthOctets_mono {m n : Nat} (h : m ≤ n) :
    (lengthOctets m).length ≤ (lengthOctets n).length := by
  rw [length_lengthOctets, length_lengthOctets]
  split_ifs <;> omega

/-- `xs` begins with a field that has this tag and this content, and goes on with `rest`. -/
def Tlv (tag : UInt8) (content rest xs : List UInt8) : Prop :=
  ∃ h, LengthOctets h content.length ∧ xs = tag :: (h ++ (content ++ rest))

/-- The field in its shortest form. -/
def tlv (tag : UInt8) (content : List UInt8) : List UInt8 :=
  tag :: (lengthOctets content.length ++ content)

variable {content rest : List UInt8} {tag : UInt8}

/-- An encoded field in front of other bytes. -/
theorem tlv_spec (tag : UInt8) (hn : content.length < 2 ^ 24) (rest : List UInt8) :
    Tlv tag content rest (tlv tag content ++ rest) := by
  refine ⟨lengthOctets content.length, lengthOctets_spec hn, ?_⟩
  simp only [tlv, cons_append, append_assoc]

/-- An encoded field on its own. -/
theorem tlv_self (tag : UInt8) (hn : content.length < 2 ^ 24) :
    Tlv tag content [] (tlv tag content) := by
  have h := tlv_spec tag hn []
  rwa [append_nil] at h

/-- A tag, the length octets and the content. -/
theorem length_tlv (tag : UInt8) (content : List UInt8) :
    (tlv tag content).length = 1 + (lengthOctets content.length).length + content.length := by
  rw [tlv, length_cons, length_append]
  omega

/-- A field has a tag and a length. -/
theorem Tlv.two_le_length {xs : List UInt8} (h : Tlv tag content rest xs) : 2 ≤ xs.length := by
  obtain ⟨o, ho, rfl⟩ := h
  have hpos := ho.length_pos
  simp only [length_cons, length_append]
  omega

/-- What follows the bytes belongs to the rest. -/
theorem Tlv.append {xs : List UInt8} (h : Tlv tag content rest xs) (ys : List UInt8) :
    Tlv tag content (rest ++ ys) (xs ++ ys) := by
  obtain ⟨o, ho, rfl⟩ := h
  exact ⟨o, ho, by simp only [cons_append, append_assoc]⟩

/-- A field begins with its tag. -/
theorem Tlv.head {x : UInt8} {xs ys zs : List UInt8} (h : Tlv tag content rest xs)
    (heq : xs ++ zs = x :: ys) : x = tag := by
  obtain ⟨o, -, rfl⟩ := h
  rw [cons_append, List.cons.injEq] at heq
  exact heq.1.symm

/-- The four forms of the length behind a tag. -/
theorem Tlv.forms {t a : UInt8} {xs : List UInt8} (h : Tlv tag content rest (t :: a :: xs)) :
    (a.toNat < 128 ∧ content.length = a.toNat ∧ content ++ rest = xs) ∨
      (a = 0x81 ∧ ∃ x ys, xs = x :: ys ∧ content.length = x.toNat ∧ content ++ rest = ys) ∨
      (a = 0x82 ∧ ∃ x y ys, xs = x :: y :: ys ∧ content ++ rest = ys) ∨
      (a = 0x83 ∧ ∃ x y z ys, xs = x :: y :: z :: ys ∧ content ++ rest = ys) := by
  obtain ⟨o, ho, heq⟩ := h
  rw [List.cons.injEq] at heq
  generalize content.length = n at ho ⊢
  cases ho with
  | short b hb =>
    cases heq.2
    exact .inl ⟨hb, rfl, rfl⟩
  | one b =>
    cases heq.2
    exact .inr (.inl ⟨rfl, _, _, rfl, rfl, rfl⟩)
  | two b c =>
    cases heq.2
    exact .inr (.inr (.inl ⟨rfl, _, _, _, rfl, rfl⟩))
  | three b c d =>
    cases heq.2
    exact .inr (.inr (.inr ⟨rfl, _, _, _, _, rfl, rfl⟩))

/-- The bytes determine the field. -/
theorem Tlv.unique {tag' : UInt8} {content' rest' xs : List UInt8} (h : Tlv tag content rest xs)
    (h' : Tlv tag' content' rest' xs) :
    tag = tag' ∧ content = content' ∧ rest = rest' := by
  obtain ⟨o, ho, rfl⟩ := h
  obtain ⟨o', ho', heq⟩ := h'
  rw [List.cons.injEq] at heq
  obtain ⟨-, hlen, htail⟩ := ho.unique ho' heq.2
  obtain ⟨hcontent, hrest⟩ := append_inj htail hlen
  exact ⟨heq.1, hcontent, hrest⟩

end OpenCryptoki.Lib
