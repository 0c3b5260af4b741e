import OpenCryptoki.Common.RsaPkcs

/-!
# `OpenCryptoki.Proofs.Common.RsaPkcs`: parsing and formatting of block type 1

A block of type 1 is `00 01 FF ... FF 00 d` with at least 8 bytes `FF`. `formatsTo_iff` says that
`rsa_format_block` makes exactly these blocks.

`scanType1_cases` says where the scan of `rsa_parse_block_type_1` stops. The scan ends one byte
before the end of the block. If it has found no zero until then, the last byte is taken for the
separator without a look at it. So the parser accepts the blocks of type 1 and one more kind,
`00 01 FF ... FF x` with a last byte `x` that is not zero (`rsaParseBlock_cases`).
`rsa_parse_block_exact_iff` says that parsing is the inverse of formatting for all other blocks.
-/

set_option autoImplicit false

namespace OpenCryptoki.Proofs.Common

open Lib OpenCryptoki.Common List

/-! ### Blocks of type 1 -/

/-- `00 01 FF ... FF 00 d` with `n` bytes `FF`. -/
def blockType1 (n : Nat) (d : List UInt8) : List UInt8 :=
  0 :: 1 :: (List.replicate n 0xff ++ 0 :: d)

/-- `eb` is a block of type 1 with data `d`. -/
def IsBlockType1 (eb d : List UInt8) : Prop :=
  8 ≤ eb.length - 3 - d.length ∧ eb = blockType1 (eb.length - 3 - d.length) d

/-- `00 01 FF ... FF x` with a last byte that is not zero: there is no separator. -/
def NoSeparator (eb : List UInt8) : Prop :=
  ∃ x : UInt8, x ≠ 0 ∧ eb = 0 :: 1 :: (List.replicate (eb.length - 3) 0xff ++ [x])

/-- The length of a block of type 1. -/
@[simp] theorem length_blockType1 (n : Nat) (d : List UInt8) :
    (blockType1 n d).length = n + 3 + d.length := by
  simp [blockType1]
  omega

variable {n : Nat} {eb d : List UInt8}

/-- The blocks that are made are of type 1. -/
theorem isBlockType1_blockType1 (hn : 8 ≤ n) (d : List UInt8) :
    IsBlockType1 (blockType1 n d) d := by
  have hlen : (blockType1 n d).length - 3 - d.length = n := by
    rw [length_blockType1]
    omega
  rw [IsBlockType1, hlen]
  exact ⟨hn, rfl⟩

/-- A block of type 1 by the number of its bytes `FF`. -/
theorem isBlockType1_iff : IsBlockType1 eb d ↔ ∃ n, 8 ≤ n ∧ eb = blockType1 n d := by
  constructor
  · exact fun h => ⟨_, h.1, h.2⟩
  · rintro ⟨n, hn, rfl⟩
    exact isBlockType1_blockType1 hn d

/-- The first element that differs from `x` is where it is. -/
theorem replicate_append_inj {α : Type} {x b c : α} (hb : b ≠ x) (hc : c ≠ x) {m : Nat}
    {xs ys : List α} (h : replicate m x ++ b :: xs = replicate n x ++ c :: ys) :
    m = n ∧ b = c ∧ xs = ys := by
  induction m generalizing n with
  | zero =>
    cases n with
    | zero =>
      exact ⟨rfl, List.cons.inj h⟩
    | succ n => exact absurd (List.cons.inj h).1 hb
  | succ m ih =>
    cases n with
    | zero => exact absurd (List.cons.inj h).1.symm hc
    | succ n =>
      obtain ⟨hm, hrest⟩ := ih (List.cons.inj h).2
      exact ⟨congrArg Nat.succ hm, hrest⟩

/-- The data of a block of type 1 is determined. -/
theorem IsBlockType1.unique {d' : List UInt8} (h : IsBlockType1 eb d) (h' : IsBlockType1 eb d') :
    d = d' := by
  have heq := h.2.symm.trans h'.2
  rw [blockType1, blockType1, List.cons.injEq, List.cons.injEq] at heq
  exact (replicate_append_inj (by decide) (by decide) heq.2.2).2.2

/-- There is no zero after the first two bytes. -/
theorem NoSeparator.zero_not_mem (h : NoSeparator eb) : (0 : UInt8) ∉ eb.drop 2 := by
  obtain ⟨x, hx, heb⟩ := h
  rw [heb]
  show (0 : UInt8) ∉ replicate (eb.length - 3) 0xff ++ [x]
  rw [mem_append, mem_replicate, mem_singleton]
  rintro (hff | hlast)
  · exact absurd hff.2 (by decide)
  · exact hx hlast.symm

/-- Without a separator a block is not of type 1. -/
theorem NoSeparator.not_isBlockType1 (h : NoSeparator eb) : ¬ IsBlockType1 eb d := by
  intro hblock
  apply h.zero_not_mem
  rw [hblock.2]
  simp [blockType1]

/-! ### Formatting -/

/-- `rsa_format_block` turns `d` into the block `eb` of type 1. -/
def FormatsTo (d eb : List UInt8) : Prop :=
  ∀ rand inData out, inData.read 0 d.length = d →
    (rsaFormatBlock rand inData d.length out eb.length 1).1 = .ok ∧
      (rsaFormatBlock rand inData d.length out eb.length 1).2.read 0 eb.length = eb

/-- What `rsa_format_block` writes for block type 1. -/
theorem rsaFormatBlock_eq (rand : List UInt8) (inData : Buf) (out : Buf) {len : Nat} (hn : 8 ≤ n) :
    rsaFormatBlock rand inData len out (n + 3 + len) 1
      = (.ok, out.write 0 (blockType1 n (inData.read 0 len))) := by
  have hpad : n + 3 + len - 3 - len = n := by omega
  rw [rsaFormatBlock, if_neg (by omega), if_neg (by omega)]
  simp only [hpad]
  rw [if_neg (by omega)]
  simp only [paddingString, length_replicate]
  -- Each write continues the one before.
  have hone := out.write_write_append 0 [0, UInt8.ofNat 1] (replicate n 0xff)
  have htwo := out.write_write_append 0 ([0, UInt8.ofNat 1] ++ replicate n 0xff) [0]
  have hthree := out.write_write_append 0 ([0, UInt8.ofNat 1] ++ replicate n 0xff ++ [0])
    (inData.read 0 len)
  simp only [length_append, length_cons, length_nil, length_replicate,
    zero_add, Nat.reduceAdd] at hone htwo hthree
  rw [hone, htwo, hthree]
  simp [blockType1]

/-- `rsa_format_block` makes the blocks of type 1. -/
theorem formatsTo_iff : FormatsTo d eb ↔ IsBlockType1 eb d := by
  constructor
  · intro h
    let inData : Buf := Buf.write (fun _ => 0) 0 d
    obtain ⟨hrc, heb⟩ := h [] inData (fun _ => 0) (Buf.read_write _ _ _)
    -- The length checks have passed, so there is room for eight bytes of padding.
    have hroom : d.length + 11 ≤ eb.length := by
      refine not_lt.mp fun hlt => ?_
      rw [rsaFormatBlock] at hrc
      split at hrc
      · cases hrc
      · rw [if_pos (by omega)] at hrc
        cases hrc
    obtain ⟨n, hn⟩ : ∃ n, eb.length = n + 3 + d.length := ⟨eb.length - 3 - d.length, by omega⟩
    rw [hn, rsaFormatBlock_eq [] inData _ (by omega), Buf.read_write,
      ← length_blockType1, Buf.read_write] at heb
    exact heb ▸ isBlockType1_blockType1 (by omega) d
  · rw [isBlockType1_iff]
    rintro ⟨n, hn, rfl⟩ rand inData out hdata
    rw [length_blockType1, rsaFormatBlock_eq rand inData out hn, hdata, ← length_blockType1,
      Buf.read_write]
    exact ⟨rfl, rfl⟩

/-! ### Parsing -/

/-- Where the scan stops: at a zero, at the end, or at a byte that is neither `FF` nor zero. -/
theorem scanType1_cases (eb : List UInt8) (n i : Nat) (h : i + n ≤ eb.length) :
    (∃ m, m < n ∧ scanType1 eb n i = .ok (i + m + 1, true) ∧
        eb.drop i = replicate m 0xff ++ 0 :: eb.drop (i + m + 1)) ∨
      (scanType1 eb n i = .ok (i + n, false) ∧ eb.drop i = replicate n 0xff ++ eb.drop (i + n)) ∨
      (scanType1 eb n i = .error .encryptedDataInvalid ∧
        ∃ m b ys, m < n ∧ b ≠ 0xff ∧ b ≠ 0 ∧ eb.drop i = replicate m 0xff ++ b :: ys) := by
  induction n generalizing i with
  | zero => exact .inr (.inl ⟨rfl, rfl⟩)
  | succ n ih =>
    have hi : i < eb.length := by omega
    have hget : eb.getD i 0 = eb[i] := getD_eq_getElem _ _ hi
    have hdrop : eb.drop i = eb[i] :: eb.drop (i + 1) := drop_eq_getElem_cons hi
    rw [scanType1, hget]
    by_cases hff : eb[i] = 0xff
    · rw [if_neg (not_not.mpr hff)]
      rw [hff] at hdrop
      rcases ih (i + 1) (by omega) with ⟨m, hm, hscan, hrest⟩ | ⟨hscan, hrest⟩ |
        ⟨hscan, m, b, ys, hm, hb, hb0, hrest⟩
      · refine .inl ⟨m + 1, by omega, ?_, ?_⟩
        · rw [hscan, show i + 1 + m + 1 = i + (m + 1) + 1 by omega]
        · rw [hdrop, hrest, show i + 1 + m + 1 = i + (m + 1) + 1 by omega]
          rfl
      · refine .inr (.inl ⟨?_, ?_⟩)
        · rw [hscan, show i + 1 + n = i + (n + 1) by omega]
        · rw [hdrop, hrest, show i + 1 + n = i + (n + 1) by omega]
          rfl
      · exact .inr (.inr ⟨hscan, m + 1, b, ys, by omega, hb, hb0, by rw [hdrop, hrest]; rfl⟩)
    · rw [if_pos hff]
      by_cases hzero : eb[i] = 0
      · rw [if_pos hzero]
        rw [hzero] at hdrop
        exact .inl ⟨0, by omega, rfl, hdrop⟩
      · rw [if_neg hzero]
        exact .inr (.inr ⟨rfl, 0, eb[i], _, by omega, hff, hzero, hdrop⟩)

/-- The block `eb` of type 1 parses to `d`: with a buffer that is as large as the block, `d` is
what is written. -/
def ParsesTo (type2 : List UInt8 → Buf → Nat → MemResult) (eb d : List UInt8) : Prop :=
  ∀ out outDataLen, eb.length ≤ outDataLen →
    rsaParseBlock type2 eb out outDataLen 1 = ⟨.ok, out.write 0 d, d.length⟩

/-- The first two bytes, and the bytes that the scan looks at. -/
theorem eq_cons_cons_drop (hk : 2 ≤ eb.length) : eb = eb.getD 0 0 :: eb.getD 1 0 :: eb.drop 2 := by
  match eb, hk with
  | _ :: _ :: _, _ => rfl

/-- A block whose first two bytes are not `00 01` is not of one of the two kinds. -/
theorem first_bytes (h : IsBlockType1 eb d ∨ NoSeparator eb) :
    eb.getD 0 0 = 0 ∧ eb.getD 1 0 = 1 := by
  rcases h with h | ⟨x, -, h⟩
  · rw [h.2]
    exact ⟨rfl, rfl⟩
  · rw [h]
    exact ⟨rfl, rfl⟩

section
variable (type2 : List UInt8 → Buf → Nat → MemResult) (hk : 12 ≤ eb.length)
include hk

/-- What `rsa_parse_block` does after the first two bytes, when the scan has stopped at `i`. -/
theorem rsaParseBlock_scanned (heb : eb = 0 :: 1 :: eb.drop 2) {i : Nat} {found : Bool}
    (hscan : scanType1 eb (eb.length - 3) 2 = .ok (i, found)) (out : Buf) (outDataLen : Nat)
    (hroom : eb.length ≤ outDataLen) :
    rsaParseBlock type2 eb out outDataLen 1
      = if (if found then i else i + 1) - 3 < 8 then ⟨.encryptedDataInvalid, out, outDataLen⟩
        else ⟨.ok, out.write 0 (eb.drop (if found then i else i + 1)),
          (eb.drop (if found then i else i + 1)).length⟩ := by
  have hfirst : eb.getD 0 0 = 0 := by rw [heb]; rfl
  have hsecond : eb.getD 1 0 = UInt8.ofNat PKCS_BT_1 := by rw [heb]; rfl
  show rsaParseBlockType1 eb out outDataLen = _
  rw [rsaParseBlockType1, if_neg (by omega), if_neg (not_not.mpr hfirst),
    if_neg (not_not.mpr hsecond), hscan]
  have hfits : ¬ outDataLen < eb.length - (if found then i else i + 1) := by omega
  simp only [length_drop]
  rw [if_neg (by omega : ¬ eb.length < 2), if_neg hfits]

/-- `rsa_parse_block` accepts the blocks of type 1 and the blocks without a separator. -/
theorem rsaParseBlock_cases :
    (∃ d, (IsBlockType1 eb d ∨ d = [] ∧ NoSeparator eb) ∧ ParsesTo type2 eb d) ∨
      ((∀ d, ¬ IsBlockType1 eb d) ∧ ¬ NoSeparator eb ∧ ∀ out outDataLen, eb.length ≤ outDataLen →
          (rsaParseBlock type2 eb out outDataLen 1).rc ≠ .ok) := by
  by_cases hfirst : eb.getD 0 0 ≠ 0 ∨ eb.getD 1 0 ≠ UInt8.ofNat PKCS_BT_1
  · refine .inr ⟨fun d h => ?_, fun h => ?_, fun out outDataLen _ => ?_⟩
    · have := first_bytes (.inl h)
      exact hfirst.elim (absurd this.1) (absurd this.2)
    · have := first_bytes (d := []) (.inr h)
      exact hfirst.elim (absurd this.1) (absurd this.2)
    · show (rsaParseBlockType1 eb out outDataLen).rc ≠ .ok
      rw [rsaParseBlockType1, if_neg (by omega)]
      rcases hfirst with hfirst | hsecond
      · rw [if_pos hfirst]
        exact nofun
      · rw [if_pos hsecond]
        split <;> exact nofun
  obtain ⟨hfirst, hsecond⟩ := not_or.mp hfirst
  have heb : eb = 0 :: 1 :: eb.drop 2 := by
    conv_lhs =>
      rw [eq_cons_cons_drop (by omega : 2 ≤ eb.length), not_not.mp hfirst, not_not.mp hsecond]
    rfl
  rcases scanType1_cases eb (eb.length - 3) 2 (by omega) with
    ⟨m, hm, hscan, hdrop⟩ | ⟨hscan, hdrop⟩ | ⟨hscan, m, b, ys, hm, hb, hb0, hdrop⟩
  · -- A zero: it is the separator if there is enough padding in front of it.
    have hparse := rsaParseBlock_scanned type2 hk heb hscan
    simp only [if_true] at hparse
    by_cases hpad : 8 ≤ m
    · have hblock : IsBlockType1 eb (eb.drop (2 + m + 1)) := by
        refine isBlockType1_iff.mpr ⟨m, hpad, ?_⟩
        rw [blockType1, ← hdrop]
        exact heb
      refine .inl ⟨_, .inl hblock, fun out outDataLen hroom => ?_⟩
      rw [hparse out outDataLen hroom, if_neg (by omega)]
    · refine .inr ⟨fun d h => ?_, fun h => ?_, fun out outDataLen hroom => ?_⟩
      · obtain ⟨n, hn, heq⟩ := isBlockType1_iff.mp h
        rw [heq, blockType1] at hdrop
        have := (replicate_append_inj (by decide) (by decide) hdrop).1
        omega
      · apply h.zero_not_mem
        rw [hdrop]
        simp
      · rw [hparse out outDataLen hroom, if_pos (by omega)]
        exact nofun
  · -- No zero: the last byte may be anything.
    have hparse := rsaParseBlock_scanned type2 hk heb hscan
    have hlast : ∃ x, eb.drop (2 + (eb.length - 3)) = [x] := by
      rw [← length_eq_one_iff, length_drop]
      omega
    obtain ⟨x, hx⟩ := hlast
    rw [hx] at hdrop
    have hend : eb.drop (2 + (eb.length - 3) + 1) = [] :=
      drop_of_length_le (by omega)
    refine .inl ⟨[], ?_, fun out outDataLen hroom => ?_⟩
    · by_cases hzero : x = 0
      · refine .inl (isBlockType1_iff.mpr ⟨eb.length - 3, by omega, ?_⟩)
        rw [hzero] at hdrop
        rw [blockType1, ← hdrop]
        exact heb
      · exact .inr ⟨rfl, x, hzero, by rw [← hdrop]; exact heb⟩
    · rw [hparse out outDataLen hroom]
      simp only [Bool.false_eq_true, if_false, hend]
      rw [if_neg (by omega)]
  · refine .inr ⟨fun d h => ?_, fun h => ?_, fun out outDataLen hroom => ?_⟩
    · obtain ⟨n, hn, heq⟩ := isBlockType1_iff.mp h
      rw [heq, blockType1] at hdrop
      exact hb0 (replicate_append_inj (by decide) hb hdrop).2.1.symm
    · -- The byte where the scan has stopped would be one of the bytes `FF`.
      obtain ⟨x, -, hno⟩ := h
      rw [hno] at hdrop
      have hsplit : replicate (eb.length - 3) (0xff : UInt8)
          = replicate m 0xff ++ 0xff :: replicate (eb.length - 3 - m - 1) 0xff := by
        rw [← replicate_succ, ← replicate_add]
        congr 1
        omega
      have hcancel : replicate (eb.length - 3) 0xff ++ [x] = replicate m 0xff ++ b :: ys := hdrop
      rw [hsplit, append_assoc, append_cancel_left_eq] at hcancel
      exact hb (List.cons.inj hcancel).1.symm
    · show (rsaParseBlockType1 eb out outDataLen).rc ≠ .ok
      rw [rsaParseBlockType1, if_neg (by omega), if_neg hfirst, if_neg hsecond, hscan]
      exact nofun

end

/-- The parser returns one result. -/
theorem ParsesTo.unique {type2 : List UInt8 → Buf → Nat → MemResult} {d' : List UInt8}
    (h : ParsesTo type2 eb d) (h' : ParsesTo type2 eb d') : d = d' := by
  have heq := (h (fun _ => 0) _ le_rfl).symm.trans (h' (fun _ => 0) _ le_rfl)
  obtain ⟨-, hmem, hlen⟩ := MemResult.mk.inj heq
  have hread := Buf.read_write (fun _ => 0) 0 d
  rw [hmem, hlen, Buf.read_write] at hread
  exact hread.symm

/-- Parsing is the inverse of formatting for a block if and only if the block has not the form
`00 01 FF ... FF x` with a last byte that is not zero. -/
theorem rsa_parse_block_exact_iff (type2 : List UInt8 → Buf → Nat → MemResult) (eb : List UInt8)
    (hk : 12 ≤ eb.length) :
    (∀ d, (ParsesTo type2 eb d ↔ IsBlockType1 eb d) ∧ (IsBlockType1 eb d ↔ FormatsTo d eb)) ↔
      ¬ NoSeparator eb := by
  constructor
  · intro hexact hno
    rcases rsaParseBlock_cases type2 hk with ⟨d, -, hparses⟩ | ⟨-, hsep, -⟩
    · exact hno.not_isBlockType1 ((hexact d).1.mp hparses)
    · exact hsep hno
  · intro hsep d
    refine ⟨?_, formatsTo_iff.symm⟩
    rcases rsaParseBlock_cases type2 hk with ⟨d', hd', hparses⟩ | ⟨hnone, -, hfails⟩
    · have hblock := hd'.resolve_right fun h => hsep h.2
      exact ⟨fun h => h.unique hparses ▸ hblock, fun h => h.unique hblock ▸ hparses⟩
    · refine iff_of_false (fun h => ?_) (hnone d)
      have hok := h (fun _ => 0) _ le_rfl
      exact hfails (fun _ => 0) _ le_rfl (by rw [hok])

/-- The block `00 01 FF FF FF FF FF FF FF FF 00 2A` and its only byte of data. -/
theorem rsa_parse_block_exact_one_byte :
    12 ≤ (blockType1 8 [42]).length ∧
      ∀ d, (ParsesTo (fun _ out n => ⟨.argumentsBad, out, n⟩) (blockType1 8 [42]) d ↔
          IsBlockType1 (blockType1 8 [42]) d) ∧
        (IsBlockType1 (blockType1 8 [42]) d ↔ FormatsTo d (blockType1 8 [42])) :=
  ⟨by decide, (rsa_parse_block_exact_iff _ (blockType1 8 [42]) (by decide)).mpr
    fun h => h.zero_not_mem (by decide)⟩

/-- The block `00 01 FF FF FF FF FF FF FF FF FF 2A` has no separator. It is accepted, with no
data, and it is not what formatting makes of any data. -/
theorem missing_separator_accepted :
    let eb : List UInt8 := [0, 1, 255, 255, 255, 255, 255, 255, 255, 255, 255, 42]
    (rsaParseBlock (fun _ out n => ⟨.argumentsBad, out, n⟩) eb (fun _ => 0) 12 1).rc = .ok ∧
      (rsaParseBlock (fun _ out n => ⟨.argumentsBad, out, n⟩) eb (fun _ => 0) 12 1).outDataLen = 0 ∧
      ∀ d, ¬ FormatsTo d eb := by
  refine ⟨by decide, by decide, fun d h => ?_⟩
  have hno : NoSeparator [0, 1, 255, 255, 255, 255, 255, 255, 255, 255, 255, 42] :=
    ⟨42, by decide, by decide⟩
  exact hno.not_isBlockType1 (formatsTo_iff.mp h)

end OpenCryptoki.Proofs.Common
