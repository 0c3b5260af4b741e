import OpenCryptoki.Kmip.Bignum

/-!
# `OpenCryptoki.Proofs.Kmip.Bignum`: which big integers come back from a message

`kmip_decode_bignum` reads every piece of data as the two's complement form that it is
(`kmipDecodeBignum_eq`), so a big integer comes back exactly if the bytes that
`kmip_encode_bignum` writes are its two's complement form.

* A negative number always gets a byte more when its highest bit would be taken for a sign
  (`two_mul_natAbs_lt`), and comes back.
* A positive number never gets that byte. Rounding up to whole blocks leaves room for the sign
  unless the bits fill the blocks, that is, unless their number is a multiple of 64
  (`two_mul_natAbs_lt_iff`). The moduli of RSA are such numbers.
* Zero has no bytes at all, and `kmip_decode_bignum` reads the first of them.

`bignum_round_trip_iff` puts the three together.
-/

set_option autoImplicit false

namespace OpenCryptoki.Proofs.Kmip

open Lib OpenCryptoki.Kmip

/-! ### Numbers of bits and bytes -/

variable (bn : Int)

/-- The number of bits is the smallest that holds the absolute value. -/
theorem bnNumBits_le_iff (k : Nat) : bnNumBits bn ≤ k ↔ bn.natAbs < 2 ^ k := by
  rw [bnNumBits]
  split
  · next h =>
    subst h
    exact iff_of_true zero_le (Nat.two_pow_pos k)
  · next h =>
    rw [Nat.succ_le_iff]
    exact Nat.log2_lt (Int.natAbs_ne_zero.mpr h)

/-- Bytes in bits. -/
theorem two_pow_eight_mul (n : Nat) : 2 ^ (8 * n) = 256 ^ n := by
  rw [Nat.pow_mul]

/-- The number of bytes is the smallest that holds the absolute value. -/
theorem bnNumBytes_le_iff (n : Nat) : bnNumBytes bn ≤ n ↔ bn.natAbs < 256 ^ n := by
  rw [← two_pow_eight_mul, ← bnNumBits_le_iff, bnNumBytes]
  omega

/-- The highest bit of the first byte, in terms of the number of bits. -/
theorem bnIsBitSet_iff {bn : Int} (h : bn ≠ 0) :
    bnIsBitSet bn (bnNumBytes bn * 8 - 1) = true ↔ bnNumBits bn = 8 * bnNumBytes bn := by
  have hpos : 0 < bnNumBits bn := by
    rw [bnNumBits, if_neg h]
    exact Nat.succ_pos _
  have hbytes : bnNumBits bn ≤ 8 * bnNumBytes bn := by
    rw [bnNumBytes]
    omega
  have hbits : bnNumBits bn ≤ bnNumBytes bn * 8 - 1 ∨ bnNumBits bn = 8 * bnNumBytes bn := by omega
  constructor
  · intro hset
    have hge := Nat.ge_two_pow_of_testBit hset
    have hnot : ¬ bnNumBits bn ≤ bnNumBytes bn * 8 - 1 := by
      rw [bnNumBits_le_iff]
      omega
    exact hbits.resolve_left hnot
  · intro heq
    apply Nat.testBit_of_two_pow_le_and_two_pow_add_one_gt
    · rw [← not_lt, ← bnNumBits_le_iff]
      omega
    · rw [← bnNumBits_le_iff]
      omega

/-! ### Lengths in a message -/

/-- Rounding up to whole blocks. -/
theorem paddedBignumLength_eq :
    paddedBignumLength bn = 8 * ((kmipEncodeBignumLength bn + 7) / 8) := by
  show (if kmipEncodeBignumLength bn % 8 ≠ 0 then
      kmipEncodeBignumLength bn + (8 - kmipEncodeBignumLength bn % 8)
    else kmipEncodeBignumLength bn) = _
  split <;> omega

/-- The padded length has room for all bytes. -/
theorem bnNumBytes_le_padded : bnNumBytes bn ≤ paddedBignumLength bn := by
  have hlen : bnNumBytes bn ≤ kmipEncodeBignumLength bn := by
    simp only [kmipEncodeBignumLength]
    split <;> omega
  rw [paddedBignumLength_eq]
  omega

/-- The absolute value fits in the padded length. -/
theorem natAbs_lt_padded : bn.natAbs < 256 ^ paddedBignumLength bn :=
  (bnNumBytes_le_iff bn _).mp (bnNumBytes_le_padded bn)

/-- Half of the range, in terms of the number of bits. -/
theorem two_mul_natAbs_lt_iff_bits {n : Nat} (h : 0 < n) :
    2 * bn.natAbs < 256 ^ n ↔ bnNumBits bn < 8 * n := by
  have hpow : 256 ^ n = 2 * 2 ^ (8 * n - 1) := by
    rw [← two_pow_eight_mul, ← Nat.pow_succ']
    congr 1
    omega
  rw [hpow, Nat.mul_lt_mul_left (by omega), ← bnNumBits_le_iff]
  omega

/-- A negative number leaves room for its sign. -/
theorem two_mul_natAbs_lt {bn : Int} (h : bn < 0) :
    2 * bn.natAbs < 256 ^ paddedBignumLength bn := by
  have hbit := bnIsBitSet_iff (show bn ≠ 0 by omega)
  have hbytes : bnNumBits bn ≤ 8 * bnNumBytes bn ∧ bnNumBytes bn ≤ bnNumBits bn := by
    rw [bnNumBytes]
    omega
  have hlen : bnNumBits bn < 8 * kmipEncodeBignumLength bn := by
    simp only [kmipEncodeBignumLength]
    split
    · omega
    · next hset =>
      have hne : ¬ bnNumBits bn = 8 * bnNumBytes bn := fun heq => hset ⟨h, hbit.mpr heq⟩
      omega
  rw [two_mul_natAbs_lt_iff_bits _ (by rw [paddedBignumLength_eq]; omega), paddedBignumLength_eq]
  omega

/-- A number that is not negative leaves room for its sign unless its bits fill the blocks. -/
theorem two_mul_natAbs_lt_iff {bn : Int} (h : 0 < bn) :
    2 * bn.natAbs < 256 ^ paddedBignumLength bn ↔ ¬ 64 ∣ bnNumBits bn := by
  have hpos : 0 < bnNumBits bn := by
    rw [bnNumBits, if_neg (by omega)]
    exact Nat.succ_pos _
  have hlen : kmipEncodeBignumLength bn = (bnNumBits bn + 7) / 8 := by
    simp only [kmipEncodeBignumLength]
    rw [if_neg (by omega), bnNumBytes]
  have hpad : paddedBignumLength bn = 8 * (((bnNumBits bn + 7) / 8 + 7) / 8) := by
    rw [paddedBignumLength_eq, hlen]
  rw [two_mul_natAbs_lt_iff_bits _ (by omega), hpad]
  omega

/-! ### Decoding -/

/-- Data with at least one byte of memory is read as the two's complement form that it is. -/
theorem kmipDecodeBignum_eq (bs rest : List UInt8) (h : bs ++ rest ≠ []) :
    kmipDecodeBignum (bs ++ rest) bs.length = .ok (signedValue bs) := by
  have hread : readAt (bs ++ rest) 0 bs.length = some bs := readAt_middle [] bs rest
  have hcast : ((256 ^ bs.length : Nat) : Int) = (256 : Int) ^ bs.length :=
    Int.natCast_pow 256 bs.length
  cases bs with
  | nil =>
    obtain ⟨b, rest', rfl⟩ := List.exists_cons_of_ne_nil h
    rw [kmipDecodeBignum, hread]
    simp only [access_some, ok_bind, List.nil_append, List.getElem?_cons_zero]
    split <;> rfl
  | cons b bs =>
    rw [kmipDecodeBignum, hread, signedValue, signBit]
    simp only [access_some, ok_bind, List.cons_append, List.getElem?_cons_zero]
    split
    · next hsign =>
      -- The sign bit is set: the bytes are not zero, and changing the sign twice gives them back.
      have hhalf := (signBit_iff (b :: bs)).mp hsign
      have hlt : wordValue .big (b :: bs) < 256 ^ (b :: bs).length := wordValue_lt .big _
      have hpos : 0 < wordValue .big (b :: bs) := by omega
      have hval := wordValue_negateBytes_of_pos hpos
      show Except.ok (-(wordValue .big (negateBytes (b :: bs)) : Int)) = _
      rw [hval, ← hcast]
      congr 1
      omega
    · rfl

/-! ### Encoding -/

/-- `kmip_encode_bignum` always succeeds in the length that its callers give it. What is written is
the two's complement form of the number, if that leaves room for the sign. -/
theorem kmipEncodeBignum_spec : ∃ bytes, kmipEncodeBignum bn (paddedBignumLength bn) = .ok bytes ∧
    bytes.length = paddedBignumLength bn ∧
      (signedValue bytes = bn ↔ bn ≤ 0 ∨ ¬ 64 ∣ bnNumBits bn) := by
  have hval : wordValue .big (wordBytes .big (paddedBignumLength bn) bn.natAbs) = bn.natAbs :=
    wordValue_wordBytes_of_lt (natAbs_lt_padded bn)
  rw [kmipEncodeBignum, bnBn2binpad, if_pos (bnNumBytes_le_padded bn)]
  dsimp only
  split
  · next hneg =>
    refine ⟨_, rfl, by simp, ?_⟩
    have hhalf := two_mul_natAbs_lt hneg
    have hsigned : signedValue (negateBytes (wordBytes .big (paddedBignumLength bn) bn.natAbs))
        = -(bn.natAbs : Int) := by
      rw [signedValue_negateBytes, hval]
      · rw [hval]
        omega
      · rw [hval, length_wordBytes]
        omega
    rw [hsigned]
    omega
  · next hnonneg =>
    refine ⟨_, rfl, by simp, ?_⟩
    have hamount : (bn.natAbs : Int) = bn := Int.natAbs_of_nonneg (by omega)
    have hiff := signedValue_wordBytes_iff (natAbs_lt_padded bn)
    rw [hamount] at hiff
    rw [hiff]
    by_cases hzero : bn = 0
    · subst hzero
      exact iff_of_true (Nat.pow_pos (by omega)) (.inl (Int.le_refl 0))
    · rw [two_mul_natAbs_lt_iff (by omega)]
      omega

/-! ### Round trips -/

/-- The number is encoded in whole blocks, as its two's complement form, and those bytes are
decoded to it. -/
def BignumRoundTrips (bn : Int) : Prop :=
  ∃ data, kmipEncodeBignum bn (paddedBignumLength bn) = .ok data
    ∧ data.length = paddedBignumLength bn
    ∧ signedValue data = bn
    ∧ kmipDecodeBignum data data.length = .ok bn

/-- A big integer comes back if and only if it is negative, or its bits do not fill whole
blocks. -/
theorem bignum_round_trip_iff (bn : Int) :
    BignumRoundTrips bn ↔ bn < 0 ∨ ¬ 64 ∣ bnNumBits bn := by
  obtain ⟨bytes, henc, hlen, hsigned⟩ := kmipEncodeBignum_spec bn
  constructor
  · rintro ⟨data, hdata, -, hvalue, hdecode⟩
    rw [henc, Except.ok.injEq] at hdata
    subst hdata
    -- Zero is the one number whose bytes are its form and still do not come back.
    have hne : bn ≠ 0 := by
      rintro rfl
      have hnil : bytes = [] := List.length_eq_zero_iff.mp hlen
      subst hnil
      cases hdecode
    omega
  · intro h
    have hne : bn ≠ 0 := by
      rintro rfl
      exact h.elim (fun h0 => absurd h0 (Int.lt_irrefl 0)) fun h64 => h64 ⟨0, rfl⟩
    have hvalue : signedValue bytes = bn := hsigned.mpr (h.imp_left Int.le_of_lt)
    have hbytes : bytes ++ [] ≠ [] := by
      intro hnil
      have hpos : 0 < paddedBignumLength bn := by
        have hlt := natAbs_lt_padded bn
        rcases Nat.eq_zero_or_pos (paddedBignumLength bn) with hzero | hpos
        · rw [hzero, pow_zero] at hlt
          omega
        · exact hpos
      rw [← hlen, (List.append_eq_nil_iff.mp hnil).1] at hpos
      exact absurd hpos (lt_irrefl 0)
    have hdecode := kmipDecodeBignum_eq bytes [] hbytes
    rw [List.append_nil, hvalue] at hdecode
    exact ⟨bytes, henc, hlen, hvalue, hdecode⟩

/-- The smallest positive number that fills a block comes back with the wrong sign. -/
theorem bignum_two_pow_63_negated :
    kmipEncodeBignum (2 ^ 63) (paddedBignumLength (2 ^ 63)) = .ok [0x80, 0, 0, 0, 0, 0, 0, 0]
      ∧ kmipDecodeBignum [0x80, 0, 0, 0, 0, 0, 0, 0] 8 = .ok (-2 ^ 63)
      ∧ ¬ BignumRoundTrips (2 ^ 63) := by
  have henc : kmipEncodeBignum (2 ^ 63) (paddedBignumLength (2 ^ 63))
      = .ok [0x80, 0, 0, 0, 0, 0, 0, 0] := by decide
  refine ⟨henc, by decide, ?_⟩
  rintro ⟨data, hdata, -, hvalue, -⟩
  rw [henc, Except.ok.injEq] at hdata
  subst hdata
  exact absurd hvalue (by decide)

end OpenCryptoki.Proofs.Kmip
