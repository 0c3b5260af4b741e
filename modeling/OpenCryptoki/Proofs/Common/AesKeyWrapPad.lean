import OpenCryptoki.Proofs.Common.AesKeyWrap

/-!
# `OpenCryptoki.Proofs.Common.AesKeyWrapPad`: key wrap with padding, and the exact inverses

`padData` fills data up with zeros, and `makeAiv` holds its length. `kwpSeal` and `kwpOpen` are
key wrap with padding on lists: one block is encrypted as it is, and more blocks are wrapped.
`aeskwWrapPad_eq` and `aeskwUnwrapPad_cases` say that the functions of the source compute them in
memory. `accepts_iff` says that the checks on the initial value, on the length and on the zeros
accept exactly what `padData` and `makeAiv` make.

`ExactInverse` is the relation between a function that wraps and one that unwraps: the second
one accepts exactly the outputs of the first one and returns their data.
-/

set_option autoImplicit false

namespace OpenCryptoki.Proofs.Common

open Lib OpenCryptoki.Common

/-! ### The length in the alternative initial value -/

/-- The low byte of a number. -/
theorem toNat_ofNat_and (n : Nat) : (UInt8.ofNat (n &&& 0xFF)).toNat = n % 256 := by
  show (n &&& (2 ^ 8 - 1)) % 256 = n % 256
  rw [Nat.and_two_pow_sub_one_eq_mod, Nat.mod_mod]

/-- The length that four bytes spell, most significant byte first. -/
theorem ptextLen_eq (a₀ a₁ a₂ a₃ a₄ a₅ a₆ a₇ : UInt8) :
    ptextLen [a₀, a₁, a₂, a₃, a₄, a₅, a₆, a₇]
      = a₄.toNat * 2 ^ 24 + (a₅.toNat * 2 ^ 16 + (a₆.toNat * 2 ^ 8 + a₇.toNat)) := by
  have h₅ := a₅.toNat_lt
  have h₆ := a₆.toNat_lt
  have h₇ := a₇.toNat_lt
  -- Each byte is shifted behind the bits of the bytes after it.
  have hlow : a₆.toNat <<< 8 ||| a₇.toNat = a₆.toNat * 2 ^ 8 + a₇.toNat := by
    rw [← Nat.shiftLeft_add_eq_or_of_lt (by omega), Nat.shiftLeft_eq]
  have hmid : a₅.toNat <<< 16 ||| (a₆.toNat * 2 ^ 8 + a₇.toNat)
      = a₅.toNat * 2 ^ 16 + (a₆.toNat * 2 ^ 8 + a₇.toNat) := by
    rw [← Nat.shiftLeft_add_eq_or_of_lt (by omega), Nat.shiftLeft_eq]
  have hhigh : a₄.toNat <<< 24 ||| (a₅.toNat * 2 ^ 16 + (a₆.toNat * 2 ^ 8 + a₇.toNat))
      = a₄.toNat * 2 ^ 24 + (a₅.toNat * 2 ^ 16 + (a₆.toNat * 2 ^ 8 + a₇.toNat)) := by
    rw [← Nat.shiftLeft_add_eq_or_of_lt (by omega), Nat.shiftLeft_eq]
  have hfits : ∀ (a : UInt8) (k : Nat), k ≤ 24 → a.toNat <<< k % 2 ^ 32 = a.toNat <<< k := by
    intro a k hk
    have ha := a.toNat_lt
    apply Nat.mod_eq_of_lt
    rw [Nat.shiftLeft_eq]
    calc a.toNat * 2 ^ k < 2 ^ 8 * 2 ^ k := Nat.mul_lt_mul_of_pos_right ha (Nat.two_pow_pos k)
      _ ≤ 2 ^ 8 * 2 ^ 24 := Nat.mul_le_mul_left _ (Nat.pow_le_pow_right (by decide) hk)
      _ = 2 ^ 32 := by decide
  rw [← hhigh, ← hmid, ← hlow, ← Nat.or_assoc, ← Nat.or_assoc, ← hfits a₄ 24 (by decide),
    ← hfits a₅ 16 (by decide), ← hfits a₆ 8 (by decide)]
  rfl

variable {len n : Nat} {Ok : Nat → Prop} {g : List UInt8 → List UInt8} {resLen : Nat → Nat}

variable (iv : Option (Vector UInt8 AES_KEY_WRAP_KWP_IV_SIZE))

/-- The length can be read back. -/
theorem ptextLen_makeAiv (hlen : len < 2 ^ 32) : ptextLen (makeAiv iv len).toList = len := by
  obtain ⟨a₀, a₁, a₂, a₃, hiv⟩ : ∃ a₀ a₁ a₂ a₃,
      (iv.getD aeskwDefaultAiv).toList = [a₀, a₁, a₂, a₃] :=
    List.length_eq_four.mp Vector.length_toList
  have haiv : (makeAiv iv len).toList =
      (iv.getD aeskwDefaultAiv).toList ++ (aivLength len).toList :=
    Vector.toList_append
  rw [haiv, hiv]
  refine (ptextLen_eq _ _ _ _ _ _ _ _).trans ?_
  simp only [toNat_ofNat_and, Nat.shiftRight_eq_div_pow]
  omega

/-- The alternative initial value is one block. -/
theorem length_makeAiv (len : Nat) : (makeAiv iv len).toList.length = AES_KEY_WRAP_BLOCK_SIZE :=
  Vector.length_toList

/-- The bytes of the length that four bytes spell. -/
theorem aivLength_eq (a₄ a₅ a₆ a₇ : UInt8) :
    (aivLength (a₄.toNat * 2 ^ 24
        + (a₅.toNat * 2 ^ 16 + (a₆.toNat * 2 ^ 8 + a₇.toNat)))).toList = [a₄, a₅, a₆, a₇] := by
  have h₄ := a₄.toNat_lt
  have h₅ := a₅.toNat_lt
  have h₆ := a₆.toNat_lt
  have h₇ := a₇.toNat_lt
  have hbyte : ∀ (n : Nat) (a : UInt8), n % 256 = a.toNat → UInt8.ofNat (n &&& 0xFF) = a := by
    intro n a hn
    exact UInt8.toNat_inj.mp ((toNat_ofNat_and n).trans hn)
  show [_, _, _, _] = _
  rw [hbyte _ a₄ (by rw [Nat.shiftRight_eq_div_pow]; omega),
    hbyte _ a₅ (by rw [Nat.shiftRight_eq_div_pow]; omega),
    hbyte _ a₆ (by rw [Nat.shiftRight_eq_div_pow]; omega), hbyte _ a₇ (by omega)]

/-- The bytes of a block by name. -/
theorem exists_eight_bytes {xs : List UInt8} (h : xs.length = 8) :
    ∃ a₀ a₁ a₂ a₃ a₄ a₅ a₆ a₇, xs = [a₀, a₁, a₂, a₃, a₄, a₅, a₆, a₇] :=
  match xs, h with
  | [a₀, a₁, a₂, a₃, a₄, a₅, a₆, a₇], _ => ⟨a₀, a₁, a₂, a₃, a₄, a₅, a₆, a₇, rfl⟩

/-! ### Padding -/

/-- `padded_len` of a length. -/
def paddedLen (len : Nat) : Nat := (len + 7) / 8 * 8

/-- The data with zeros up to a multiple of 8. -/
def padData (data : List UInt8) : List UInt8 :=
  data ++ List.replicate (paddedLen data.length - data.length) 0

/-- Padding does not shorten. -/
theorem le_paddedLen (len : Nat) : len ≤ paddedLen len := by
  unfold paddedLen
  omega

/-- Padded data has whole blocks. -/
theorem dvd_paddedLen (len : Nat) : AES_KEY_WRAP_BLOCK_SIZE ∣ paddedLen len :=
  Nat.dvd_mul_left _ _

/-- The length of padded data. -/
theorem length_padData (data : List UInt8) : (padData data).length = paddedLen data.length := by
  rw [padData, List.length_append, List.length_replicate,
    Nat.add_sub_cancel' (le_paddedLen data.length)]

/-- The padded length is the only multiple of 8 in the range that `aeskw_unwrap_pad` checks. -/
theorem paddedLen_eq_iff (hn : 0 < n) :
    8 * (n - 1) < len ∧ len ≤ 8 * n ↔ 0 < len ∧ paddedLen len = 8 * n := by
  unfold paddedLen
  omega

/-- The checks of `aeskw_unwrap_pad` on the initial value and on the data accept what padding
has made. -/
theorem accepts_iff (hn : 0 < n) {aiv padded : List UInt8}
    (haiv : aiv.length = AES_KEY_WRAP_IV_SIZE) (hpadded : padded.length = 8 * n)
    (hfits : 8 * n < 2 ^ 32) (data : List UInt8) :
    (aiv.take AES_KEY_WRAP_KWP_IV_SIZE = (iv.getD aeskwDefaultAiv).toList ∧
        (8 * (n - 1) < ptextLen aiv ∧ ptextLen aiv ≤ 8 * n) ∧
        padded.drop (ptextLen aiv) = List.replicate (8 * n - ptextLen aiv) 0 ∧
        padded.take (ptextLen aiv) = data) ↔
      0 < data.length ∧ aiv = (makeAiv iv data.length).toList ∧ padded = padData data := by
  constructor
  · rintro ⟨hiv, hrange, hzeros, hdata⟩
    have hlen : data.length = ptextLen aiv := by
      rw [← hdata, List.length_take, hpadded, min_eq_left hrange.2]
    obtain ⟨hpos, hround⟩ := (paddedLen_eq_iff hn).mp hrange
    refine ⟨hlen ▸ hpos, ?_, ?_⟩
    · -- An initial value is the one for the length that it holds.
      have htoList : (makeAiv iv (ptextLen aiv)).toList = aiv := by
        have hmake : (makeAiv iv (ptextLen aiv)).toList
            = (iv.getD aeskwDefaultAiv).toList ++ (aivLength (ptextLen aiv)).toList :=
          Vector.toList_append
        obtain ⟨a₀, a₁, a₂, a₃, a₄, a₅, a₆, a₇, rfl⟩ := exists_eight_bytes haiv
        rw [hmake, ← hiv, ptextLen_eq, aivLength_eq]
        rfl
      rw [hlen, htoList]
    · rw [padData, hlen, hround, ← hzeros, ← hdata, List.take_append_drop]
  · rintro ⟨hpos, rfl, rfl⟩
    have hround : paddedLen data.length = 8 * n := by rw [← length_padData, hpadded]
    have hle := le_paddedLen data.length
    have hlen : ptextLen (makeAiv iv data.length).toList = data.length :=
      ptextLen_makeAiv iv (by omega)
    have hmake : (makeAiv iv data.length).toList
        = (iv.getD aeskwDefaultAiv).toList ++ (aivLength data.length).toList :=
      Vector.toList_append
    rw [hlen]
    refine ⟨?_, (paddedLen_eq_iff hn).mpr ⟨hpos, hround⟩, ?_, ?_⟩
    · rw [hmake, List.take_left' Vector.length_toList]
    · rw [padData, List.drop_left, hround]
    · rw [padData, List.take_left]

/-! ### Wrapping padded data -/

section
variable (p : BlockPerm UInt8 AES_BLOCK_SIZE)

/-- Padded data wrapped with the initial value `aiv`. -/
def kwpSeal (aiv padded : List UInt8) : List UInt8 :=
  if padded.length = AES_KEY_WRAP_BLOCK_SIZE then p.enc (aiv ++ padded) else kwWrap p aiv padded

/-- The initial value and the padded data of a ciphertext. -/
def kwpOpen (c : List UInt8) : List UInt8 × List UInt8 :=
  if c.length = 16 then
    ((p.dec c).take AES_KEY_WRAP_IV_SIZE, (p.dec c).drop AES_KEY_WRAP_IV_SIZE)
  else kwUnwrap p c

section
variable {aiv padded c : List UInt8}

section
variable (haiv : aiv.length = AES_KEY_WRAP_BLOCK_SIZE)
  (hdvd : AES_KEY_WRAP_BLOCK_SIZE ∣ padded.length)
include haiv hdvd

/-- Sealing adds one block. -/
theorem length_kwpSeal :
    (kwpSeal p aiv padded).length = padded.length + AES_KEY_WRAP_BLOCK_SIZE := by
  rw [kwpSeal]
  split
  · next hone =>
    rw [p.length_enc _ (length_state_append haiv hone), hone]
    rfl
  · exact length_kwWrap p haiv hdvd

/-- Opening undoes sealing. -/
theorem kwpOpen_kwpSeal : kwpOpen p (kwpSeal p aiv padded) = (aiv, padded) := by
  have hlen := length_kwpSeal p haiv hdvd
  rw [kwpOpen, hlen]
  by_cases hone : padded.length = AES_KEY_WRAP_BLOCK_SIZE
  · rw [if_pos (by rw [hone]; rfl), kwpSeal, if_pos hone,
      p.dec_enc _ (length_state_append haiv hone), AES_KEY_WRAP_IV_SIZE, List.take_left' haiv,
      List.drop_left' haiv]
  · have hmore : padded.length + AES_KEY_WRAP_BLOCK_SIZE ≠ 16 := by
      simp only [AES_KEY_WRAP_BLOCK_SIZE] at *
      omega
    rw [if_neg hmore, kwpSeal, if_neg hone, kwUnwrap_kwWrap p haiv hdvd]

end

section
variable (hlong : 2 * AES_KEY_WRAP_BLOCK_SIZE ≤ c.length)
  (hdvd : AES_KEY_WRAP_BLOCK_SIZE ∣ c.length)
include hlong hdvd

/-- Opening gives an initial value and the blocks behind it. -/
theorem length_kwpOpen :
    (kwpOpen p c).1.length = AES_KEY_WRAP_BLOCK_SIZE ∧
      (kwpOpen p c).2.length = c.length - AES_KEY_WRAP_BLOCK_SIZE := by
  rw [kwpOpen]
  split
  · next hone =>
    have hdec := p.length_dec c hone
    refine ⟨length_take_block hdec, (length_drop_block hdec).trans ?_⟩
    rw [hone]
    rfl
  · exact length_kwUnwrap p (by omega) hdvd

/-- Sealing undoes opening. -/
theorem kwpSeal_kwpOpen : kwpSeal p (kwpOpen p c).1 (kwpOpen p c).2 = c := by
  obtain ⟨-, hlen⟩ := length_kwpOpen p hlong hdvd
  rw [kwpSeal, hlen]
  by_cases hone : c.length = 16
  · rw [if_pos (by rw [hone]; rfl), kwpOpen, if_pos hone, List.take_append_drop, p.enc_dec c hone]
  · rw [if_neg, kwpOpen, if_neg hone, kwWrap_kwUnwrap p (by omega) hdvd]
    simp only [AES_KEY_WRAP_BLOCK_SIZE] at *
    omega

end

end

variable {inDataLen outDataLen : Nat}

section
variable (mem : Buf) (inData outData : Nat)

/-- `aeskw_wrap_pad` writes what key wrap makes of the padded bytes at `in_data`. -/
theorem aeskwWrapPad_eq (iv : Option (Vector UInt8 AES_KEY_WRAP_KWP_IV_SIZE)) (hpos : 0 < inDataLen)
    (hshort : paddedLen inDataLen ≤ UINT32_MAX)
    (hroom : paddedLen inDataLen + AES_KEY_WRAP_BLOCK_SIZE ≤ outDataLen) :
    aeskwWrapPad (ecbOf p) mem inData inDataLen outData outDataLen iv = ⟨.ok, mem.write outData
            (kwpSeal p (makeAiv iv inDataLen).toList (padData (mem.read inData inDataLen))),
          paddedLen inDataLen + AES_KEY_WRAP_BLOCK_SIZE⟩ := by
  have hle := le_paddedLen inDataLen
  have hdata : (mem.read inData inDataLen).length = inDataLen := mem.length_read _ _
  have hlen : (padData (mem.read inData inDataLen)).length = paddedLen inDataLen := by
    rw [length_padData, hdata]
  unfold aeskwWrapPad
  rw [show (inDataLen + 7) / 8 * 8 = paddedLen inDataLen from rfl, if_neg (by omega),
    if_neg (by omega), kwpSeal, hlen]
  -- A single block is encrypted as it is. Longer data is padded in `out_data` and wrapped there.
  by_cases hone : paddedLen inDataLen = AES_KEY_WRAP_BLOCK_SIZE
  · simp only [if_pos hone, if_neg (by omega : ¬ inDataLen > AES_KEY_WRAP_BLOCK_SIZE)]
    rw [padData, hdata, hone]
    rfl
  · have hmem : (mem.write outData (mem.read inData inDataLen)).write (outData + inDataLen)
        (List.replicate (paddedLen inDataLen - inDataLen) 0)
          = mem.write outData (padData (mem.read inData inDataLen)) := by
      have happend := mem.write_write_append outData (mem.read inData inDataLen)
        (List.replicate (paddedLen inDataLen - inDataLen) 0)
      rw [hdata] at happend
      rw [happend, padData, hdata]
    have hread : (mem.write outData (padData (mem.read inData inDataLen))).read outData
        (paddedLen inDataLen) = padData (mem.read inData inDataLen) := by
      rw [← hlen, Buf.read_write]
    have hlong : 2 * AES_KEY_WRAP_BLOCK_SIZE ≤ paddedLen inDataLen := by
      have hdvd := dvd_paddedLen inDataLen
      simp only [AES_KEY_WRAP_BLOCK_SIZE] at *
      omega
    simp only [if_neg hone, hmem]
    have hwrap : (kwWrap p (makeAiv iv inDataLen).toList
        (padData (mem.read inData inDataLen))).length
          = (padData (mem.read inData inDataLen)).length + AES_KEY_WRAP_BLOCK_SIZE :=
      length_kwWrap p (length_makeAiv _ _) (by rw [hlen]; exact dvd_paddedLen _)
    rw [aeskwWrap_eq p _ outData outData _ (dvd_paddedLen _) hlong hshort hroom, hread,
      Option.getD_some, Buf.write_write_cover _ _ _ _ (by omega)]

/-- `aeskw_unwrap_pad` up to its checks writes the padded data of the ciphertext at `in_data`. -/
theorem unwrapPadded_eq (hdvd : AES_KEY_WRAP_BLOCK_SIZE ∣ inDataLen)
    (hlong : 2 * AES_KEY_WRAP_BLOCK_SIZE ≤ inDataLen) (hshort : inDataLen ≤ UINT32_MAX)
    (hroom : inDataLen - AES_KEY_WRAP_BLOCK_SIZE ≤ outDataLen) :
    ∃ outDataLen', unwrapPadded (ecbOf p) mem inData inDataLen outData outDataLen
      = .ok { mem := mem.write outData (kwpOpen p (mem.read inData inDataLen)).2
              outDataLen := outDataLen'
              paddedLen := inDataLen - AES_KEY_WRAP_BLOCK_SIZE
              aiv := (kwpOpen p (mem.read inData inDataLen)).1 } := by
  rw [unwrapPadded, kwpOpen, Buf.length_read]
  by_cases hone : inDataLen = 16
  · subst hone
    exact ⟨outDataLen, rfl⟩
  · have hlong' : 3 * AES_KEY_WRAP_BLOCK_SIZE ≤ inDataLen := by
      simp only [AES_KEY_WRAP_BLOCK_SIZE] at *
      omega
    refine ⟨inDataLen - AES_KEY_WRAP_BLOCK_SIZE, ?_⟩
    simp only [if_neg hone, aeskwUnwrapRaw_eq p mem inData outData hdvd hlong' hshort hroom,
      ne_eq, not_true, if_false]

/-- The checks of `aeskw_unwrap_pad` on what has come out. -/
def PadChecks (iv : Option (Vector UInt8 AES_KEY_WRAP_KWP_IV_SIZE)) (n : Nat)
    (aiv padded : List UInt8) : Prop :=
  aiv.take AES_KEY_WRAP_KWP_IV_SIZE = (iv.getD aeskwDefaultAiv).toList ∧
    (8 * (n - 1) < ptextLen aiv ∧ ptextLen aiv ≤ 8 * n) ∧
    padded.drop (ptextLen aiv) = List.replicate (8 * n - ptextLen aiv) 0

/-- `aeskw_unwrap_pad` accepts a ciphertext if what has come out passes the checks. -/
theorem aeskwUnwrapPad_cases {n : Nat} (iv : Option (Vector UInt8 AES_KEY_WRAP_KWP_IV_SIZE))
    (hn : 0 < n) (hshort : 8 * (n + 1) ≤ UINT32_MAX) (hroom : 8 * n ≤ outDataLen) :
    let r := aeskwUnwrapPad (ecbOf p) mem inData (8 * (n + 1)) outData outDataLen iv
    let o := kwpOpen p (mem.read inData (8 * (n + 1)))
    (PadChecks iv n o.1 o.2 ∧ r = ⟨.ok, mem.write outData o.2, ptextLen o.1⟩) ∨
      (¬ PadChecks iv n o.1 o.2 ∧ r.rc = .encryptedDataInvalid) := by
  intro r o
  have hlong : 2 * AES_KEY_WRAP_BLOCK_SIZE ≤ 8 * (n + 1) := by
    simp only [AES_KEY_WRAP_BLOCK_SIZE]
    omega
  have hpadded : o.2.length = 8 * n :=
    (length_kwpOpen p (by rwa [Buf.length_read]) ⟨n + 1, Buf.length_read _ _ _⟩).2.trans
      (by rw [Buf.length_read]; rfl)
  obtain ⟨outDataLen', hopen⟩ : ∃ l, unwrapPadded (ecbOf p) mem inData (8 * (n + 1)) outData
      outDataLen = .ok ⟨mem.write outData o.2, l, 8 * n, o.1⟩ :=
    unwrapPadded_eq p mem inData outData ⟨n + 1, rfl⟩ hlong hshort hroom
  have hblocks : 8 * (n + 1) / AES_KEY_WRAP_BLOCK_SIZE - 1 = n :=
    Nat.sub_eq_of_eq_add (Nat.mul_div_cancel_left (n + 1) kw_block_size_pos)
  have hr : r = aeskwUnwrapPad (ecbOf p) mem inData (8 * (n + 1)) outData outDataLen iv := rfl
  have hdvd : 8 * (n + 1) % AES_KEY_WRAP_BLOCK_SIZE = 0 := Nat.mul_mod_right _ _
  simp only [aeskwUnwrapPad, hopen, hblocks] at hr
  rw [if_neg (by omega), if_neg (by simp only [AES_KEY_WRAP_BLOCK_SIZE]; omega)] at hr
  -- The three checks, in the order of the source.
  by_cases hiv : o.1.take AES_KEY_WRAP_KWP_IV_SIZE = (iv.getD aeskwDefaultAiv).toList
  · rw [if_neg (not_not.mpr hiv)] at hr
    by_cases hrange : 8 * (n - 1) < ptextLen o.1 ∧ ptextLen o.1 ≤ 8 * n
    · rw [if_neg (by simp only [AES_KEY_WRAP_BLOCK_SIZE]; omega)] at hr
      have hzeros : (mem.write outData o.2).read (outData + ptextLen o.1) (8 * n - ptextLen o.1)
          = o.2.drop (ptextLen o.1) := by
        rw [Buf.read_write_inside _ _ _ _ _ (by omega)]
        exact List.take_of_length_le (le_of_eq (by rw [List.length_drop, hpadded]))
      rw [hzeros] at hr
      by_cases hpad : o.2.drop (ptextLen o.1) = List.replicate (8 * n - ptextLen o.1) 0
      · rw [if_neg (not_not.mpr hpad)] at hr
        exact .inl ⟨⟨hiv, hrange, hpad⟩, hr⟩
      · rw [if_pos hpad] at hr
        exact .inr ⟨fun h => hpad h.2.2, by rw [hr]⟩
    · rw [if_pos (by simp only [AES_KEY_WRAP_BLOCK_SIZE]; omega)] at hr
      exact .inr ⟨fun h => hrange h.2.1, by rw [hr]⟩
  · rw [if_pos hiv] at hr
    exact .inr ⟨fun h => hiv h.1, by rw [hr]⟩

end

end

/-! ### Exact inverses -/

/-- A function that reads `in_data_len` bytes at `in_data` and writes to `out_data`, at most
`*out_data_len` bytes. -/
abbrev BufFunction := (mem : Buf) → (inData inDataLen outData outDataLen : Nat) → MemResult

/-- A call of `f`, with the buffers at some place in some memory, returns `CKR_OK` and turns
`data` into `res`. -/
def Produces (f : BufFunction) (data res : List UInt8) : Prop :=
  ∃ mem inData outData outDataLen, mem.read inData data.length = data ∧
    (f mem inData data.length outData outDataLen).rc = .ok ∧
    (f mem inData data.length outData outDataLen).mem.read outData
      (f mem inData data.length outData outDataLen).outDataLen = res

/-- `wrap` takes all data of a valid length, and what it makes of the data does not depend on
where the buffers are. `unwrap` accepts a ciphertext of a valid length if and only if it is an
output of `wrap`, and then returns the data, wherever the buffers are. -/
structure ExactInverse (wrap unwrap : BufFunction) (ValidData ValidCipher : Nat → Prop)
    (wrappedLen : Nat → Nat) : Prop where
  wraps : ∀ data, ValidData data.length → ∃ c, c.length = wrappedLen data.length ∧
    ∀ mem inData outData outDataLen, mem.read inData data.length = data →
      wrappedLen data.length ≤ outDataLen →
      wrap mem inData data.length outData outDataLen = ⟨.ok, mem.write outData c, c.length⟩
  accepts_iff : ∀ mem inData len outData outDataLen, ValidCipher len →
    len - AES_KEY_WRAP_BLOCK_SIZE ≤ outDataLen →
    ((unwrap mem inData len outData outDataLen).rc = .ok ↔
      ∃ data, ValidData data.length ∧ Produces wrap data (mem.read inData len))
  returns : ∀ mem inData len outData outDataLen data, ValidCipher len →
    len - AES_KEY_WRAP_BLOCK_SIZE ≤ outDataLen → Produces wrap data (mem.read inData len) →
    (unwrap mem inData len outData outDataLen).rc = .ok ∧
      (unwrap mem inData len outData outDataLen).outDataLen = data.length ∧
      (unwrap mem inData len outData outDataLen).mem.read outData data.length = data

/-- `f` writes `g` of the bytes at `in_data`, of which there may be `Ok` many. -/
structure Computes (f : BufFunction) (Ok : Nat → Prop) (g : List UInt8 → List UInt8)
    (resLen : Nat → Nat) : Prop where
  of_ok : ∀ mem inData len outData outDataLen, (f mem inData len outData outDataLen).rc = .ok →
    Ok len ∧ resLen len ≤ outDataLen
  eq : ∀ mem inData len outData outDataLen, Ok len → resLen len ≤ outDataLen →
    f mem inData len outData outDataLen
      = ⟨.ok, mem.write outData (g (mem.read inData len)), resLen len⟩
  length_eq : ∀ data, Ok data.length → (g data).length = resLen data.length

/-- What a function produces is what it computes on lists. -/
theorem Computes.produces_iff {f : BufFunction} (h : Computes f Ok g resLen)
    (data res : List UInt8) :
    Produces f data res ↔ Ok data.length ∧ g data = res := by
  constructor
  · rintro ⟨mem, inData, outData, outDataLen, hdata, hrc, hres⟩
    obtain ⟨hok, hroom⟩ := h.of_ok _ _ _ _ _ hrc
    have hlen := h.length_eq data hok
    rw [h.eq mem inData _ outData outDataLen hok hroom, hdata] at hres
    refine ⟨hok, ?_⟩
    rw [← hres, ← hlen, Buf.read_write]
  · rintro ⟨hok, rfl⟩
    let mem : Buf := Buf.write (fun _ => 0) 0 data
    have hdata : mem.read 0 data.length = data := Buf.read_write _ _ _
    have heq := h.eq mem 0 _ 0 _ hok le_rfl
    refine ⟨mem, 0, 0, resLen data.length, hdata, by rw [heq], ?_⟩
    rw [heq, hdata, ← h.length_eq data hok, Buf.read_write]

/-- The exact inverse of a function that computes `g`. -/
theorem Computes.exactInverse {wrap unwrap : BufFunction} {ValidData ValidCipher : Nat → Prop}
    (h : Computes wrap Ok g resLen) (hok : ∀ len, ValidData len → Ok len)
    (hvalid : ∀ len, Ok len → ValidCipher (resLen len) → ValidData len)
    (haccept : ∀ mem inData len outData outDataLen, ValidCipher len → len - AES_KEY_WRAP_BLOCK_SIZE
      ≤ outDataLen → (unwrap mem inData len outData outDataLen).rc = .ok → ∃ data, Ok data.length ∧
      g data = mem.read inData len)
    (hreturn : ∀ mem inData len outData outDataLen data, ValidCipher len → len -
      AES_KEY_WRAP_BLOCK_SIZE ≤ outDataLen → Ok data.length → g data = mem.read inData len →
      (unwrap mem inData len outData outDataLen).rc = .ok ∧ (unwrap mem inData len outData
      outDataLen).outDataLen = data.length ∧ (unwrap mem inData len outData outDataLen).mem.read
      outData data.length = data) :
    ExactInverse wrap unwrap ValidData ValidCipher resLen where
  wraps data hdata := by
    have hlen := h.length_eq data (hok _ hdata)
    refine ⟨g data, hlen, fun mem inData outData outDataLen hread hroom => ?_⟩
    rw [h.eq mem inData _ outData outDataLen (hok _ hdata) hroom, hread, hlen]
  accepts_iff mem inData len outData outDataLen hcipher hroom := by
    constructor
    · intro hrc
      obtain ⟨data, hdata, hg⟩ := haccept _ _ _ _ _ hcipher hroom hrc
      have hlen : resLen data.length = len := by
        rw [← h.length_eq data hdata, hg, Buf.length_read]
      exact ⟨data, hvalid _ hdata (hlen ▸ hcipher), (h.produces_iff data _).mpr ⟨hdata, hg⟩⟩
    · rintro ⟨data, -, hproduces⟩
      obtain ⟨hdata, hg⟩ := (h.produces_iff data _).mp hproduces
      exact (hreturn _ _ _ _ _ data hcipher hroom hdata hg).1
  returns mem inData len outData outDataLen data hcipher hroom hproduces := by
    obtain ⟨hdata, hg⟩ := (h.produces_iff data _).mp hproduces
    exact hreturn _ _ _ _ _ data hcipher hroom hdata hg

section
variable (p : BlockPerm UInt8 AES_BLOCK_SIZE)

/-- Wrapping computes `kwWrap`. -/
theorem computes_aeskwWrap (iv : Option (Vector UInt8 AES_KEY_WRAP_IV_SIZE)) :
    Computes (aeskwWrap (ecbOf p) · · · · · iv) (fun n => 8 ∣ n ∧ 16 ≤ n ∧ n ≤ UINT32_MAX)
      (kwWrap p (iv.getD aeskwDefaultIv).toList) (· + 8) where
  of_ok mem inData len outData outDataLen hrc := by
    rw [aeskwWrap] at hrc
    split at hrc
    · cases hrc
    · next hlen =>
      split at hrc
      · cases hrc
      · next hroom =>
        simp only [AES_KEY_WRAP_BLOCK_SIZE] at hlen hroom
        omega
  eq mem inData len outData outDataLen hlen hroom :=
    aeskwWrap_eq p mem inData outData iv hlen.1 hlen.2.1 hlen.2.2 hroom
  length_eq data hdata := length_kwWrap p Vector.length_toList hdata.1

/-- Wrapping with padding computes `kwpSeal` of the padded data. -/
theorem computes_aeskwWrapPad (iv : Option (Vector UInt8 AES_KEY_WRAP_KWP_IV_SIZE)) :
    Computes (aeskwWrapPad (ecbOf p) · · · · · iv) (fun n => 0 < n ∧ paddedLen n ≤ UINT32_MAX)
      (fun data => kwpSeal p (makeAiv iv data.length).toList (padData data))
      (fun n => paddedLen n + 8) where
  of_ok mem inData len outData outDataLen hrc := by
    unfold aeskwWrapPad at hrc
    rw [show (len + 7) / 8 * 8 = paddedLen len from rfl] at hrc
    by_cases hlen : len = 0 ∨ len > UINT32_MAX
    · rw [if_pos hlen] at hrc
      cases hrc
    by_cases hroom : outDataLen < paddedLen len + AES_KEY_WRAP_BLOCK_SIZE
    · simp only [if_neg hlen, if_pos hroom] at hrc
      cases hrc
    refine ⟨⟨by omega, ?_⟩, not_lt.mp hroom⟩
    -- More than one block goes to `aeskw_wrap`, which checks the length again.
    by_cases hone : paddedLen len = AES_KEY_WRAP_BLOCK_SIZE
    · rw [hone]
      decide
    · simp only [if_neg hlen, if_neg hroom, if_neg hone] at hrc
      exact ((computes_aeskwWrap p _).of_ok _ _ _ _ _ hrc).1.2.2
  eq mem inData len outData outDataLen hlen hroom := by
    rw [aeskwWrapPad_eq p mem inData outData iv hlen.1 hlen.2 hroom, Buf.length_read]
    rfl
  length_eq data hdata := by
    have hdvd : AES_KEY_WRAP_BLOCK_SIZE ∣ (padData data).length := by
      rw [length_padData]
      exact dvd_paddedLen _
    rw [length_kwpSeal p (length_makeAiv _ _) hdvd, length_padData]
    rfl

/-- Key wrap is exactly invertible. -/
theorem aeskwUnwrap_exactInverse (iv : Option (Vector UInt8 AES_KEY_WRAP_IV_SIZE)) :
    ExactInverse (aeskwWrap (ecbOf p) · · · · · iv) (aeskwUnwrap (ecbOf p) · · · · · iv)
      (fun n => 8 ∣ n ∧ 16 ≤ n ∧ n + 8 < 2 ^ 32) (fun n => 8 ∣ n ∧ 24 ≤ n ∧ n < 2 ^ 32)
      (· + 8) := by
  have hiv : (iv.getD aeskwDefaultIv).toList.length = AES_KEY_WRAP_BLOCK_SIZE :=
    Vector.length_toList
  refine (computes_aeskwWrap p iv).exactInverse ?_ ?_ ?_ ?_
  · intro len h
    exact ⟨h.1, h.2.1, by simp only [UINT32_MAX]; omega⟩
  · intro len hok hcipher
    exact ⟨hok.1, hok.2.1, hcipher.2.2⟩
  -- What is accepted was wrapped, since the recovered value is compared with the IV.
  · intro mem inData len outData outDataLen hcipher hroom hrc
    have hread : (mem.read inData len).length = len := mem.length_read _ _
    have hlong : AES_KEY_WRAP_BLOCK_SIZE ≤ (mem.read inData len).length := by
      rw [hread]
      exact le_trans (by decide) hcipher.2.1
    obtain ⟨-, hlen⟩ := length_kwUnwrap p hlong (by rw [hread]; exact hcipher.1)
    rw [aeskwUnwrap_eq p mem inData outData iv hcipher.1 hcipher.2.1
      (Nat.le_sub_one_of_lt hcipher.2.2) hroom] at hrc
    split at hrc
    · cases hrc
    · next heq =>
      refine ⟨(kwUnwrap p (mem.read inData len)).2, ?_, ?_⟩
      · rw [hlen, hread]
        simp only [AES_KEY_WRAP_BLOCK_SIZE, UINT32_MAX]
        omega
      · rw [← not_not.mp heq]
        exact kwWrap_kwUnwrap p hlong (by rw [hread]; exact hcipher.1)
  · intro mem inData len outData outDataLen data hcipher hroom hdata hwrap
    have hlen : data.length + AES_KEY_WRAP_BLOCK_SIZE = len := by
      rw [← length_kwWrap p hiv hdata.1, hwrap, Buf.length_read]
    rw [aeskwUnwrap_eq p mem inData outData iv hcipher.1 hcipher.2.1
      (Nat.le_sub_one_of_lt hcipher.2.2) hroom, ← hwrap, kwUnwrap_kwWrap p hiv hdata.1,
      if_neg (not_not.mpr rfl), ← hlen, Nat.add_sub_cancel]
    exact ⟨rfl, rfl, Buf.read_write _ _ _⟩

/-- Key wrap with padding is exactly invertible. -/
theorem aeskwUnwrapPad_exactInverse (iv : Option (Vector UInt8 AES_KEY_WRAP_KWP_IV_SIZE)) :
    ExactInverse (aeskwWrapPad (ecbOf p) · · · · · iv) (aeskwUnwrapPad (ecbOf p) · · · · · iv)
      (fun n => 0 < n ∧ n ≤ 2 ^ 32 - 16) (fun n => 8 ∣ n ∧ 16 ≤ n ∧ n < 2 ^ 32)
      (fun n => paddedLen n + 8) := by
  refine (computes_aeskwWrapPad p iv).exactInverse ?_ ?_ ?_ ?_
  -- Data that may be wrapped has an output whose length fits in 32 bits.
  · intro len h
    refine ⟨h.1, ?_⟩
    simp only [UINT32_MAX, paddedLen]
    omega
  · intro len hok hcipher
    have hle := le_paddedLen len
    exact ⟨hok.1, by omega⟩
  -- What is accepted was wrapped: the checks accept exactly padded data with its length.
  · rintro mem inData _ outData outDataLen ⟨⟨m, rfl⟩, hlong, hshort⟩ hroom hrc
    obtain ⟨n, rfl⟩ : ∃ n, m = n + 1 := ⟨m - 1, by omega⟩
    have hread : (mem.read inData (8 * (n + 1))).length = 8 * (n + 1) := mem.length_read _ _
    obtain ⟨haiv, hpadded⟩ := length_kwpOpen p (hread.symm ▸ hlong) ⟨n + 1, hread⟩
    have hseal := kwpSeal_kwpOpen p (hread.symm ▸ hlong) ⟨n + 1, hread⟩
    rw [hread] at hpadded
    cases aeskwUnwrapPad_cases p mem inData outData iv (by omega) (Nat.le_sub_one_of_lt hshort)
      hroom with
    | inl h =>
      obtain ⟨⟨hiv, hrange, hzeros⟩, -⟩ := h
      obtain ⟨hpos, hmake, hpad⟩ := (accepts_iff iv (by omega) haiv hpadded (by omega) _).mp
        ⟨hiv, hrange, hzeros, rfl⟩
      refine ⟨_, ⟨hpos, ?_⟩, ?_⟩
      · rw [← length_padData, ← hpad, hpadded]
        simp only [UINT32_MAX, AES_KEY_WRAP_BLOCK_SIZE]
        omega
      · rw [← hmake, ← hpad, hseal]
    | inr h => exact absurd (h.2.symm.trans hrc) (by decide)
  -- What was wrapped is accepted, and the data is returned without the padding.
  · rintro mem inData _ outData outDataLen data ⟨⟨m, rfl⟩, hlong, hshort⟩ hroom ⟨hpos, -⟩ hseal
    obtain ⟨n, rfl⟩ : ∃ n, m = n + 1 := ⟨m - 1, by omega⟩
    have hdvd : AES_KEY_WRAP_BLOCK_SIZE ∣ (padData data).length := by
      rw [length_padData]
      exact dvd_paddedLen _
    have hopen := kwpOpen_kwpSeal p (length_makeAiv iv data.length) hdvd
    have hlen := length_kwpSeal p (length_makeAiv iv data.length) hdvd
    simp only [hseal, Buf.length_read] at hopen hlen
    have hpadded : (padData data).length = 8 * n := by
      simp only [AES_KEY_WRAP_BLOCK_SIZE] at hlen
      omega
    obtain ⟨hiv, hrange, hzeros, -⟩ := (accepts_iff iv (by omega) (length_makeAiv iv data.length)
      hpadded (by omega) data).mpr ⟨hpos, rfl, rfl⟩
    have hle := le_paddedLen data.length
    have hptext := ptextLen_makeAiv iv (show data.length < 2 ^ 32 by
      rw [length_padData] at hpadded
      omega)
    have hcases := aeskwUnwrapPad_cases p mem inData outData iv (show 0 < n by omega)
      (Nat.le_sub_one_of_lt hshort) hroom
    simp only [hopen, hptext] at hcases
    cases hcases with
    | inl h =>
      rw [h.2]
      refine ⟨rfl, rfl, ?_⟩
      rw [← Buf.take_read _ _ _ _ (length_padData data ▸ hle : data.length ≤ (padData data).length),
        Buf.read_write, padData, List.take_left]
    | inr h => exact absurd ⟨hiv, hrange, hzeros⟩ h.1

/-- AES key wrap without and with padding are exact inverses, for every permutation of the
blocks and every initial value. -/
theorem aes_key_wrap_exact :
    (∀ iv : Option (Vector UInt8 AES_KEY_WRAP_IV_SIZE),
      ExactInverse (aeskwWrap (ecbOf p) · · · · · iv) (aeskwUnwrap (ecbOf p) · · · · · iv)
        (fun n => 8 ∣ n ∧ 16 ≤ n ∧ n + 8 < 2 ^ 32) (fun n => 8 ∣ n ∧ 24 ≤ n ∧ n < 2 ^ 32)
        (· + 8)) ∧
      ∀ iv : Option (Vector UInt8 AES_KEY_WRAP_KWP_IV_SIZE),
        ExactInverse (aeskwWrapPad (ecbOf p) · · · · · iv) (aeskwUnwrapPad (ecbOf p) · · · · · iv)
          (fun n => 0 < n ∧ n ≤ 2 ^ 32 - 16) (fun n => 8 ∣ n ∧ 16 ≤ n ∧ n < 2 ^ 32)
          (fun n => paddedLen n + 8) :=
  ⟨aeskwUnwrap_exactInverse p, aeskwUnwrapPad_exactInverse p⟩

/-- With the default initial values, no bytes are the output of `ckm_aes_key_wrap` both without and
with padding. -/
theorem ckm_aes_key_wrap_separated (c : List UInt8) :
    ¬ ((∃ data, Produces (ckmAesKeyWrap (some (ecbOf p)) · · · · · none true false) data c) ∧
      ∃ data, Produces (ckmAesKeyWrap (some (ecbOf p)) · · · · · none true true) data c) := by
  rintro ⟨⟨data, h⟩, data', hpad⟩
  obtain ⟨⟨hdvd, hlong, -⟩, rfl⟩ := ((computes_aeskwWrap p none).produces_iff data c).mp h
  obtain ⟨-, hseal⟩ := ((computes_aeskwWrapPad p none).produces_iff data' _).mp hpad
  have hopen := kwpOpen_kwpSeal p (length_makeAiv none data'.length)
    (length_padData data' ▸ dvd_paddedLen _)
  -- The bytes hold one initial value, and the default ones differ.
  rw [hseal, kwpOpen, length_kwWrap p rfl hdvd, AES_KEY_WRAP_BLOCK_SIZE, if_neg (by omega),
    kwUnwrap_kwWrap p rfl hdvd] at hopen
  exact absurd (show (0xA6 : UInt8) = 0x59 from congrArg (·.1.getD 1 0) hopen) (by decide)

end

end OpenCryptoki.Proofs.Common
