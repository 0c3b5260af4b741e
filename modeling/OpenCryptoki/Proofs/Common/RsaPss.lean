import OpenCryptoki.Common.RsaPss
import OpenCryptoki.Proofs.Common.RsaMgf1

/-!
# `OpenCryptoki.Proofs.Common.RsaPss`: verification of RSA-PSS is exact

`pssBlock` is the encoded block of a message hash and a salt, on lists. `emsaPssEncode_eq` says
that `emsa_pss_encode` builds it, and `emsaPssVerify_iff` says what `emsa_pss_verify` accepts.
Both work with a data block of `n` zero bytes, a separator and the salt, `n` being what is left
of the modulus (`PssLengths`).

`emsa_pss_verify_exact` puts them together. The mask is put on and taken off by the same
exclusive or, and the cleared top bit is lost only where `DB` has a zero bit anyway
(`clearTop_unmask`).
-/

set_option autoImplicit false

namespace OpenCryptoki.Proofs.Common

open Lib OpenCryptoki.Common

/-! ### The block of a salt -/

/-- `H` for a message hash and a salt. -/
def pssHash (h : Hash) (p : PssParams) (mHash salt : List UInt8) : List UInt8 :=
  (h p.hashAlg (List.replicate 8 0 ++ (mHash ++ salt))).toList

/-- `DB` with `n` bytes of padding. -/
def pssDb (n : Nat) (salt : List UInt8) : List UInt8 := List.replicate n 0 ++ (1 :: salt)

/-- The encoded block with `n` bytes of padding. -/
def pssBlock (h : Hash) (p : PssParams) (mHash salt : List UInt8) (n : Nat) : List UInt8 :=
  clearTop (xorBytes (pssDb n salt) (mgfMask h p.mgf (pssHash h p mHash salt)
    (n + 1 + salt.length)))
    ++ (pssHash h p mHash salt ++ [0xbc])

/-- Zeros, a separator and the salt. -/
@[simp] theorem length_pssDb (n : Nat) (salt : List UInt8) :
    (pssDb n salt).length = n + 1 + salt.length := by
  simp [pssDb]
  omega

/-- `H` is a digest. -/
@[simp] theorem length_pssHash (h : Hash) (p : PssParams) (mHash salt : List UInt8) :
    (pssHash h p mHash salt).length = getShaSize p.hashAlg :=
  Vector.length_toList

/-! ### Lengths -/

open List

/-- The lengths that the functions compute, for a block of `n + 1 + s + hlen + 1` bytes. -/
structure PssLengths (p : PssParams) (n k : Nat) : Prop where
  k_eq : k = n + 1 + p.sLen + getShaSize p.hashAlg + 1
  fits : k < 2 ^ 40

section
variable {p : PssParams} {n k : Nat}

/-- The block is as long as the modulus. -/
theorem pssEmLen_eq (k : Nat) : pssEmLen k = k := by
  rw [pssEmLen, if_neg]
  simp only [pssEmBits, ulongSub, ulongMul]
  omega

/-- One bit of the block is not used. -/
theorem pssTopMask_eq (k : Nat) : pssTopMask k = 0x7f := by
  have hshift : ulongSub (ulongMul 8 (pssEmLen k)) (pssEmBits k) = 1 := by
    rw [pssEmLen_eq]
    simp only [pssEmBits, ulongSub, ulongMul]
    omega
  rw [pssTopMask, hshift]
  rfl

namespace PssLengths

variable (l : PssLengths p n k)
include l

/-- The check of the length passes. -/
theorem room : ¬ k < ulongAdd (ulongAdd (getShaSize p.hashAlg) p.sLen) 2 := by
  obtain ⟨hk, hfits⟩ := l
  simp only [ulongAdd]
  omega

/-- The length of the data block does not wrap around. -/
theorem dbLen : ulongSub (ulongSub k (getShaSize p.hashAlg)) 1 = n + 1 + p.sLen := by
  obtain ⟨hk, hfits⟩ := l
  simp only [ulongSub]
  omega

/-- The length of what is hashed does not wrap around. -/
theorem mLen : ulongAdd (8 + getShaSize p.hashAlg) p.sLen = 8 + getShaSize p.hashAlg + p.sLen := by
  obtain ⟨hk, hfits⟩ := l
  simp only [ulongAdd]
  omega

/-- The padding of the encoder has `n` bytes. -/
theorem psLen : ulongSub (ulongSub (ulongSub k p.sLen) (getShaSize p.hashAlg)) 2 = n := by
  obtain ⟨hk, hfits⟩ := l
  simp only [ulongSub]
  omega

/-- The padding of the verifier has `n` bytes. -/
theorem plen : ulongSub (ulongSub (ulongSub k (getShaSize p.hashAlg)) p.sLen) 2 = n := by
  obtain ⟨hk, hfits⟩ := l
  simp only [ulongSub]
  omega

/-- The index of the last byte. -/
theorem last : ulongSub k 1 = n + 1 + p.sLen + getShaSize p.hashAlg := by
  obtain ⟨hk, hfits⟩ := l
  simp only [ulongSub]
  omega

/-- Small sums do not wrap around. -/
theorem small {a b : Nat} (h : a + b ≤ 2 * k + 200) : ulongAdd a b = a + b := by
  have := l.fits
  simp only [ulongAdd]
  omega

/-- The offsets in the check of the data block. -/
theorem offsets {i : Nat} (h : i + 1 + p.sLen + (8 + getShaSize p.hashAlg) ≤ 2 * k + 200) :
    ulongAdd i 1 = i + 1 ∧ ulongAdd (i + 1) p.sLen = i + 1 + p.sLen ∧
      ulongAdd (i + 1 + p.sLen) 8 = i + 1 + p.sLen + 8 ∧
      ulongAdd (i + 1 + p.sLen) (8 + getShaSize p.hashAlg)
        = i + 1 + p.sLen + (8 + getShaSize p.hashAlg) :=
  ⟨l.small (by omega), l.small (by omega), l.small (by omega), l.small h⟩

end PssLengths

end

/-! ### Encoding -/

/-- The top bit is cleared in place. -/
theorem andAt_zero_eq (xs : List UInt8) (h : 0 < xs.length) (ys : List UInt8) :
    andAt (xs ++ ys) 0 0x7f = .ok (clearTop xs ++ ys) := by
  cases xs with
  | nil => cases h
  | cons x xs =>
    have hread : readAt (x :: xs ++ ys) 0 1 = some [x] := by
      simpa using readAt_middle [] [x] (xs ++ ys)
    have hwrite : writeAt (x :: xs ++ ys) 0 [x &&& 0x7f] = some ((x &&& 0x7f) :: xs ++ ys) := by
      simpa using writeAt_middle [] [x] (xs ++ ys) (show [x &&& 0x7f].length = [x].length from rfl)
    rw [andAt, hread]
    show access (writeAt (x :: xs ++ ys) 0 [x &&& 0x7f]) = _
    rw [hwrite]
    rfl

section
variable {mHash salt : List UInt8} {hlen s r : Nat} (hmHash : mHash.length = hlen)
  (hsalt : salt.length = s)
include hmHash hsalt hlen

/-- The salt and then the message hash go into a buffer of zeros. -/
theorem pssM_eq :
    (if s > 0 then rngGenerateAt salt (replicate (8 + hlen + s + r) 0) (8 + hlen) s
        else .ok (replicate (8 + hlen + s + r) 0))
      = .ok (replicate (8 + hlen) 0 ++ (salt ++ replicate r 0)) ∧
    writeAt (replicate (8 + hlen) 0 ++ (salt ++ replicate r 0)) 8 mHash
      = some (replicate 8 0 ++ (mHash ++ (salt ++ replicate r 0))) := by
  constructor
  · have hzeros : replicate (8 + hlen + s + r) (0 : UInt8)
        = replicate (8 + hlen) 0 ++ (replicate s 0 ++ replicate r 0) := by
      simp only [replicate_append_replicate, add_assoc]
    rw [hzeros]
    split
    · have hrng := rngGenerateAt_eq (replicate (8 + hlen) 0) (replicate s 0)
        (replicate r 0) (hsalt.trans length_replicate.symm)
      rwa [length_replicate, hsalt] at hrng
    · have hs : s = 0 := by omega
      subst hs
      rw [length_eq_zero_iff.mp hsalt]
      rfl
  · refine writeAt_of_eq (replicate 8 0) (replicate hlen 0) _ ?_ rfl ?_
    · rw [replicate_add, append_assoc]
    · rw [hmHash, length_replicate]

/-- What is read from the buffer with `M'`. -/
theorem pssM_read :
    readAt (replicate 8 0 ++ (mHash ++ (salt ++ replicate r 0))) 0 (8 + hlen + s)
        = some (replicate 8 0 ++ (mHash ++ salt)) ∧
      readAt (replicate 8 0 ++ (mHash ++ (salt ++ replicate r 0))) (8 + hlen) s = some salt := by
  constructor
  · refine readAt_of_eq [] _ (replicate r 0) (by simp only [append_assoc]; rfl) rfl ?_
    rw [length_append, length_append, length_replicate, hmHash, hsalt, add_assoc]
  · refine readAt_of_eq (replicate 8 0 ++ mHash) salt (replicate r 0)
      (by simp only [append_assoc]) ?_ hsalt.symm
    rw [length_append, length_replicate, hmHash]

end

/-- `H`, the separator and the salt go into a block of zeros. -/
theorem pssPieces_eq {H salt : List UInt8} {n hlen s : Nat} (hH : H.length = hlen)
    (hsalt : salt.length = s) :
    writeAt (replicate (n + 1 + s + hlen + 1) 0) (n + 1 + s) H
        = some (replicate (n + 1 + s) 0 ++ (H ++ [0])) ∧
      writeAt (replicate (n + 1 + s) 0 ++ (H ++ [0])) n [1]
        = some (replicate n 0 ++ ([1] ++ (replicate s 0 ++ (H ++ [0])))) ∧
      writeAt (replicate n 0 ++ ([1] ++ (replicate s 0 ++ (H ++ [0])))) (n + 1) salt
        = some (pssDb n salt ++ (H ++ [0])) := by
  have hzero : [(0 : UInt8)] = replicate 1 0 := rfl
  refine ⟨?_, ?_, ?_⟩
  · refine writeAt_of_eq _ (replicate hlen 0) _ ?_ length_replicate.symm
      (hH.trans length_replicate.symm)
    rw [hzero, replicate_append_replicate, replicate_append_replicate, add_assoc]
  · refine writeAt_of_eq _ [0] _ ?_ length_replicate.symm rfl
    rw [replicate_add, replicate_add, hzero, append_assoc, append_assoc]
  · have hwrite := writeAt_middle (replicate n 0 ++ [1]) (replicate s 0) (H ++ [0])
      (hsalt.trans length_replicate.symm)
    rw [length_append, length_replicate, append_assoc, append_assoc] at hwrite
    rw [pssDb, append_assoc]
    exact hwrite

/-- The mask, the cleared top bit and the last byte. -/
theorem pssMasked_eq {db mask : List UInt8} (H rest : List UInt8) {len : Nat}
    (hdb : db.length = len)
    (hpos : 0 < len) (hmask : mask.length = len) (x : UInt8) :
    xorAt (db ++ (H ++ [x])) 0 (mask ++ rest) 0 len = .ok (xorBytes db mask ++ (H ++ [x])) ∧
      andAt (xorBytes db mask ++ (H ++ [x])) 0 0x7f
        = .ok (clearTop (xorBytes db mask) ++ (H ++ [x])) ∧
      writeAt (clearTop (xorBytes db mask) ++ (H ++ [x])) (len + H.length) [0xbc]
        = some (clearTop (xorBytes db mask) ++ (H ++ [0xbc])) := by
  have hxor : (xorBytes db mask).length = len := by
    rw [length_xorBytes_of_eq (hmask.trans hdb.symm), hdb]
  refine ⟨?_, andAt_zero_eq _ (by omega) _, ?_⟩
  · exact xorAt_eq [] db _ [] mask rest rfl rfl hdb.symm (hmask.trans hdb.symm)
  · have hwrite := writeAt_middle (clearTop (xorBytes db mask) ++ H) [x] []
      (show [(0xbc : UInt8)].length = [x].length from rfl)
    rw [length_append, length_clearTop, hxor, append_nil, append_nil,
      append_assoc, append_assoc] at hwrite
    exact hwrite

/-- `emsa_pss_encode` writes the block of the salt. -/
theorem emsaPssEncode_eq (h : Hash) {p : PssParams} {n : Nat} {mHash salt em : List UInt8}
    (l : PssLengths p n em.length) (hm : p.mgf ≠ .md5)
    (hint : n + 1 + p.sLen ≤ 2 ^ 31 * getShaSize p.mgf)
    (hmHash : mHash.length = getShaSize p.hashAlg) (hsalt : salt.length = p.sLen) :
    emsaPssEncode (shaToken h) (fun _ => true) salt p mHash em em.length
      = .ok (pssBlock h p mHash salt n, em.length) := by
  -- `buf` has room for `M'` and for the mask.
  obtain ⟨r, hr⟩ : ∃ r, (if n + 1 + p.sLen < 8 + getShaSize p.hashAlg + p.sLen then
      8 + getShaSize p.hashAlg + p.sLen else n + 1 + p.sLen)
        = 8 + getShaSize p.hashAlg + p.sLen + r := by
    split
    · exact ⟨0, rfl⟩
    · exact ⟨n + 1 + p.sLen - (8 + getShaSize p.hashAlg + p.sLen), by omega⟩
  obtain ⟨r', hr'⟩ : ∃ r', 8 + getShaSize p.hashAlg + p.sLen + r = n + 1 + p.sLen + r' := by
    refine ⟨8 + getShaSize p.hashAlg + p.sLen + r - (n + 1 + p.sLen), ?_⟩
    split at hr <;> omega
  have hclear : writeAt em 0 (replicate em.length 0) = some (replicate em.length 0) := by
    simpa using writeAt_middle [] em [] length_replicate
  let H := pssHash h p mHash salt
  have hH : H.length = getShaSize p.hashAlg := length_pssHash h p mHash salt
  obtain ⟨hrng, hdata⟩ := pssM_eq (r := r) hmHash hsalt
  obtain ⟨hM, hsaltAt⟩ := pssM_read (r := r) hmHash hsalt
  obtain ⟨hone, htwo, hthree⟩ := pssPieces_eq (n := n) hH hsalt
  have hseed : readAt (pssDb n salt ++ (H ++ [0])) (n + 1 + p.sLen) (getShaSize p.hashAlg) =
    some H :=
    readAt_of_eq _ H [0] rfl (by rw [length_pssDb, hsalt]) hH.symm
  have hmask : mgf1 (shaToken h) true (.ok H)
      (replicate (8 + getShaSize p.hashAlg + p.sLen + r) 0) 0 (n + 1 + p.sLen) (some p.mgf)
        = .ok (mgfMask h p.mgf H (n + 1 + p.sLen) ++ replicate r' 0) := by
    rw [hr', replicate_add]
    exact mgf1_eq h p.mgf H hm [] _ length_replicate hint
  have hdb : (pssDb n salt).length = n + 1 + p.sLen := by rw [length_pssDb, hsalt]
  obtain ⟨hxor, hand, hlast⟩ := pssMasked_eq H (replicate r' 0) hdb (by omega)
    (length_mgfMask h p.mgf H (n + 1 + p.sLen)) 0
  rw [hH] at hlast
  rw [← l.k_eq] at hone
  have hsucc : ulongAdd n 1 = n + 1 := l.small (by have := l.k_eq; omega)
  unfold emsaPssEncode
  simp only [pssEmLen_eq, pssTopMask_eq, l.dbLen, l.mLen, l.psLen, l.last, hsucc, check_of l.room,
    check_true, hclear, access_some, ok_bind, hr, hmHash, hrng, hdata, hM, computeSha_shaToken]
  -- The hash is `H`.
  rw [show (h p.hashAlg (replicate 8 0 ++ (mHash ++ salt))).toList = H from rfl]
  simp only [hone, htwo, hsaltAt, hthree, hseed, hmask, hxor, hand, hlast, access_some, ok_bind]
  rw [pssBlock, hsalt]

/-! ### Verification -/

/-- The loop over the padding gets to the end of it if the padding is all zeros. -/
theorem skipZeros_spec (buf : List UInt8) (n i : Nat) (hlen : i + n ≤ buf.length) :
    ∃ j, skipZeros buf n i = .ok j ∧ (j = i + n ↔ (buf.drop i).take n = replicate n 0) := by
  induction n generalizing i with
  | zero => exact ⟨i, rfl, by simp⟩
  | succ n ih =>
    have hi : i < buf.length := by omega
    have hdrop : buf.drop i = buf[i] :: buf.drop (i + 1) := drop_eq_getElem_cons hi
    have hread : readAt buf i 1 = some [buf[i]] := by
      rw [readAt_eq_some (by omega), hdrop]
      rfl
    rw [skipZeros, hread, hdrop, take_succ_cons, replicate_succ]
    by_cases hzero : buf[i] = 0
    · obtain ⟨j, hj, hiff⟩ := ih (i + 1) (by omega)
      refine ⟨j, ?_, ?_⟩
      · show (if [buf[i]] = [0] then _ else _) = _
        rw [hzero, if_pos rfl, hj]
      · rw [hzero, List.cons.injEq, ← hiff, add_right_comm, add_assoc]
        exact ⟨fun h => ⟨rfl, h⟩, fun h => h.2⟩
    · refine ⟨i, ?_, iff_of_false (by omega) fun h => hzero (List.cons.inj h).1⟩
      show (if [buf[i]] = [0] then _ else _) = _
      rw [if_neg fun h => hzero (List.cons.inj h).1]

/-- `M'` behind the data block, in the buffer of `emsa_pss_verify`. -/
theorem pssVerifyM_eq (xs : List UInt8) {mHash salt : List UInt8} {len hlen s : Nat}
    (hxs : xs.length + s = len) (hmHash : mHash.length = hlen) (hsalt : salt.length = s) :
    writeAt (xs ++ (salt ++ replicate (8 + hlen + s) 0)) len (replicate 8 0)
        = some (xs ++ (salt ++ replicate (8 + hlen + s) 0)) ∧
      writeAt (xs ++ (salt ++ replicate (8 + hlen + s) 0)) (len + 8) mHash
        = some (xs ++ (salt ++ (replicate 8 0 ++ (mHash ++ replicate s 0)))) ∧
      readAt (xs ++ (salt ++ (replicate 8 0 ++ (mHash ++ replicate s 0)))) xs.length s = some salt ∧
      writeAt (xs ++ (salt ++ (replicate 8 0 ++ (mHash ++ replicate s 0))))
          (len + (8 + hlen)) salt
        = some (xs ++ (salt ++ (replicate 8 0 ++ (mHash ++ salt)))) ∧
      readAt (xs ++ (salt ++ (replicate 8 0 ++ (mHash ++ salt)))) len (8 + hlen + s)
        = some (replicate 8 0 ++ (mHash ++ salt)) := by
  have hzeros : replicate (8 + hlen + s) (0 : UInt8)
      = replicate 8 0 ++ (replicate hlen 0 ++ replicate s 0) := by
    rw [replicate_add, replicate_add, append_assoc]
  have hfront : len = (xs ++ salt).length := by rw [length_append, hsalt, hxs]
  refine ⟨?_, ?_, ?_, ?_, ?_⟩
  · rw [hzeros, ← append_assoc]
    exact writeAt_of_eq _ (replicate 8 0) _ rfl hfront rfl
  · have hwrite := writeAt_middle (xs ++ salt ++ replicate 8 0) (replicate hlen 0)
      (replicate s 0) (hmHash.trans length_replicate.symm)
    rw [length_append, ← hfront, length_replicate] at hwrite
    simpa only [hzeros, append_assoc] using hwrite
  · exact readAt_of_eq _ salt _ rfl rfl hsalt.symm
  · have hwrite := writeAt_middle (xs ++ salt ++ (replicate 8 0 ++ mHash)) (replicate s 0) []
      (hsalt.trans length_replicate.symm)
    rw [length_append, ← hfront, length_append, length_replicate, hmHash] at hwrite
    simpa only [append_assoc, append_nil] using hwrite
  · refine readAt_of_eq (xs ++ salt) _ [] ?_ hfront ?_
    · simp only [append_assoc, append_nil]
    · rw [length_append, length_append, length_replicate, hmHash, hsalt, add_assoc]

/-- A byte without its top bit. -/
theorem topBit_clear_iff (x : UInt8) : x &&& ~~~ 0x7f = 0 ↔ x &&& 0x7f = x := by
  have hall : ∀ b : BitVec 8, b &&& ~~~ 0x7f#8 = 0#8 ↔ b &&& 0x7f#8 = b := by decide
  rw [← UInt8.toBitVec_inj, ← UInt8.toBitVec_inj]
  exact hall x.toBitVec

/-- The check of the leftmost bit. -/
theorem clearTop_eq_self_iff (x : UInt8) (xs : List UInt8) :
    clearTop (x :: xs) = x :: xs ↔ [x].map (· &&& ~~~ 0x7f) = [0] := by
  show (x &&& 0x7f) :: xs = x :: xs ↔ [x &&& ~~~ 0x7f] = [0]
  rw [List.cons.injEq, List.cons.injEq, topBit_clear_iff]
  simp

/-- The checks on the unmasked data block accept `DB` of a salt that gives `H`. -/
theorem pssCheckDb_iff (h : Hash) {p : PssParams} {n k : Nat} (l : PssLengths p n k)
    {mHash Y : List UInt8} (H : List UInt8) (hmHash : mHash.length = getShaSize p.hashAlg)
    (hY : Y.length = n + 1 + p.sLen) :
    pssCheckDb (shaToken h) p mHash
        (Y ++ replicate (8 + getShaSize p.hashAlg + p.sLen) 0) n (.ok H) = .ok () ↔
      ∃ salt, salt.length = p.sLen ∧ Y = pssDb n salt ∧ pssHash h p mHash salt = H := by
  have hk := l.k_eq
  -- The padding, the separator and the salt.
  obtain ⟨zs, b, salt, rfl, hzs, hsalt⟩ : ∃ zs b salt, Y = zs ++ (b :: salt) ∧ zs.length = n ∧
      salt.length = p.sLen := by
    have hn : n < Y.length := by omega
    refine ⟨Y.take n, Y[n], Y.drop (n + 1), ?_, length_take_of_le (by omega), ?_⟩
    · rw [← drop_eq_getElem_cons hn, take_append_drop]
    · rw [length_drop]
      omega
  have hdb : (∃ salt', salt'.length = p.sLen ∧ zs ++ (b :: salt) = pssDb n salt' ∧
      pssHash h p mHash salt' = H) ↔
      zs = replicate n 0 ∧ b = 1 ∧ pssHash h p mHash salt = H := by
    constructor
    · rintro ⟨salt', -, hdb, hH⟩
      obtain ⟨hzeros, htail⟩ := append_inj hdb (by rw [hzs, length_replicate])
      obtain ⟨hb, rfl⟩ := List.cons.inj htail
      exact ⟨hzeros, hb, hH⟩
    · rintro ⟨rfl, rfl, hH⟩
      exact ⟨salt, hsalt, rfl, hH⟩
  have hcut : zs ++ (b :: salt) ++ replicate (8 + getShaSize p.hashAlg + p.sLen) 0
      = (zs ++ [b]) ++ (salt ++ replicate (8 + getShaSize p.hashAlg + p.sLen) 0) := by
    simp
  have hfront : (zs ++ [b]).length = n + 1 := by rw [length_append, hzs]; rfl
  obtain ⟨i, hi, hiff⟩ := skipZeros_spec
    (zs ++ (b :: salt) ++ replicate (8 + getShaSize p.hashAlg + p.sLen) 0) n 0 (by
      rw [length_append]
      omega)
  rw [zero_add, drop_zero, append_assoc, take_left' hzs] at hiff
  rw [hdb, pssCheckDb, hi, ok_bind, check_bind_eq_ok, ← hiff]
  refine and_congr_right fun hn => ?_
  subst hn
  have hone : readAt (zs ++ (b :: salt) ++ replicate (8 + getShaSize p.hashAlg + p.sLen) 0)
      i 1 = some [b] :=
    readAt_of_eq zs [b] _ (by rw [hcut, append_assoc]) hzs.symm rfl
  rw [hone, access_bind, check_bind_eq_ok]
  refine and_congr (by simp) ?_
  obtain ⟨hw₁, hw₂, hr₁, hw₃, hr₂⟩ := pssVerifyM_eq (zs ++ [b]) rfl hmHash hsalt
  rw [hfront] at hw₁ hw₂ hr₁ hw₃ hr₂
  obtain ⟨hadd, haddM, haddHash, haddSalt⟩ := l.offsets (i := i) (by omega)
  simp only [hcut, l.mLen, hadd, haddM, haddHash, hmHash, haddSalt, hw₁, hw₂, hr₁, hw₃, hr₂,
    computeSha_shaToken, access_some, ok_bind, check_eq_ok]
  exact Iff.rfl

/-- `emsa_pss_verify` on a block that is cut into the masked data block, `H` and the last byte. -/
theorem emsaPssVerify_iff (h : Hash) {p : PssParams} {n : Nat} {mHash X H : List UInt8} {t : UInt8}
    (l : PssLengths p n (X ++ (H ++ [t])).length) (hm : p.mgf ≠ .md5)
    (hint : n + 1 + p.sLen ≤ 2 ^ 31 * getShaSize p.mgf)
    (hmHash : mHash.length = getShaSize p.hashAlg) (hX : X.length = n + 1 + p.sLen)
    (hH : H.length = getShaSize p.hashAlg) :
    emsaPssVerify (shaToken h) (fun _ => true) p mHash (X ++ (H ++ [t]))
        (X ++ (H ++ [t])).length = .ok () ↔
      t = 0xbc ∧ clearTop X = X ∧ ∃ salt, salt.length = p.sLen ∧
        clearTop (xorBytes (mgfMask h p.mgf H (n + 1 + p.sLen)) X) = pssDb n salt ∧
        pssHash h p mHash salt = H := by
  obtain ⟨x, xs, rfl⟩ : ∃ x xs, X = x :: xs := exists_cons_of_length_pos (by omega)
  have hk := l.k_eq
  -- What is read from the encoded message: the trailer, the top byte and the hash.
  have hlast : readAt (x :: xs ++ (H ++ [t])) (n + 1 + p.sLen + getShaSize p.hashAlg) 1
      = some [t] :=
    readAt_of_eq (x :: xs ++ H) [t] [] (by simp) (by rw [length_append, hX, hH]) rfl
  have hfirst : readAt (x :: xs ++ (H ++ [t])) 0 1 = some [x] :=
    readAt_of_eq [] [x] (xs ++ (H ++ [t])) rfl rfl rfl
  have hseed : readAt (x :: xs ++ (H ++ [t])) (n + 1 + p.sLen) (getShaSize p.hashAlg) = some H :=
    readAt_of_eq _ H [t] rfl hX.symm hH.symm
  -- The mask and the data block share a buffer with the input of the second hash.
  have hbuflen : ulongAdd (n + 1 + p.sLen) (8 + getShaSize p.hashAlg + p.sLen)
      = n + 1 + p.sLen + (8 + getShaSize p.hashAlg + p.sLen) := l.small (by omega)
  have hmask : mgf1 (shaToken h) true (.ok H)
      (replicate (n + 1 + p.sLen + (8 + getShaSize p.hashAlg + p.sLen)) 0) 0 (n + 1 + p.sLen)
        (some p.mgf)
        = .ok (mgfMask h p.mgf H (n + 1 + p.sLen)
            ++ replicate (8 + getShaSize p.hashAlg + p.sLen) 0) := by
    rw [replicate_add]
    exact mgf1_eq h p.mgf H hm [] _ length_replicate hint
  let mask := mgfMask h p.mgf H (n + 1 + p.sLen)
  have hmaskLen : mask.length = n + 1 + p.sLen := length_mgfMask h p.mgf H (n + 1 + p.sLen)
  have hxor : xorAt (mask ++ replicate (8 + getShaSize p.hashAlg + p.sLen) 0) 0
      (x :: xs ++ (H ++ [t])) 0 (n + 1 + p.sLen) = .ok (xorBytes mask (x :: xs)
            ++ replicate (8 + getShaSize p.hashAlg + p.sLen) 0) :=
    xorAt_eq [] mask _ [] (x :: xs) _ rfl rfl hmaskLen.symm (hX.trans hmaskLen.symm)
  have hY : (xorBytes mask (x :: xs)).length = n + 1 + p.sLen := by
    rw [length_xorBytes_of_eq (hX.trans hmaskLen.symm), hmaskLen]
  have hand := andAt_zero_eq (xorBytes mask (x :: xs)) (by omega)
    (replicate (8 + getShaSize p.hashAlg + p.sLen) 0)
  unfold emsaPssVerify
  simp only [pssEmLen_eq, pssTopMask_eq, l.dbLen, l.mLen, l.plen, l.last, hbuflen,
    check_of l.room, check_of hmHash, check_true, hlast, hfirst, hseed, access_some, ok_bind]
  rw [check_bind_eq_ok, check_bind_eq_ok, ← clearTop_eq_self_iff x xs]
  refine and_congr (by simp) (and_congr_right fun _ => ?_)
  simp only [hmask, ok_bind]
  rw [show mgfMask h p.mgf H (n + 1 + p.sLen) = mask from rfl]
  simp only [hxor, hand, ok_bind]
  exact pssCheckDb_iff h l H hmHash (by rw [length_clearTop, hY])

/-! ### Exactness -/

section
variable (tok : HashToken) (alloc : Nat → Bool) {p : PssParams} {rand mHash em : List UInt8}
  {k : Nat}

/-- Both functions return `CKR_OK` only after `mgf1` has made the mask. -/
theorem emsaPssEncode_ok_cond {em' : List UInt8} {k' : Nat}
    (hok : emsaPssEncode tok alloc rand p mHash em k = .ok (em', k')) :
    p.mgf ≠ .md5 ∧ ulongSub (ulongSub k (getShaSize p.hashAlg)) 1 ≤ 2 ^ 31 * getShaSize p.mgf := by
  simp only [emsaPssEncode, pssEmLen_eq, bind_eq_ok] at hok
  obtain ⟨_, -, _, -, _, -, _, -, _, -, _, -, _, -, _, -, _, -, _, -, _, -, _, -, _,
    hmask, -⟩ := hok
  exact mgf1_ok_cond tok p.mgf hmask

/-- A verification succeeds only with a mask that `mgf1` can make. -/
theorem emsaPssVerify_ok_cond (hok : emsaPssVerify tok alloc p mHash em k = .ok ()) :
    p.mgf ≠ .md5 ∧ ulongSub (ulongSub k (getShaSize p.hashAlg)) 1 ≤ 2 ^ 31 * getShaSize p.mgf := by
  simp only [emsaPssVerify, pssEmLen_eq, bind_eq_ok] at hok
  obtain ⟨_, -, _, -, _, -, _, -, _, -, _, -, _, -, _, hmask, -⟩ := hok
  exact mgf1_ok_cond tok p.mgf hmask

end

/-- A block passes the checks of `emsa_pss_verify` if and only if it is the block of a salt. -/
theorem pssBlock_iff (h : Hash) {p : PssParams} {n : Nat} {mHash X H : List UInt8} {t : UInt8}
    (hX : X.length = n + 1 + p.sLen) :
    (t = 0xbc ∧ clearTop X = X ∧ ∃ salt, salt.length = p.sLen ∧
        clearTop (xorBytes (mgfMask h p.mgf H (n + 1 + p.sLen)) X) = pssDb n salt ∧
        pssHash h p mHash salt = H) ↔
      ∃ salt, salt.length = p.sLen ∧ pssBlock h p mHash salt n = X ++ (H ++ [t]) := by
  constructor
  · rintro ⟨rfl, htop, salt, hsalt, hdb, rfl⟩
    refine ⟨salt, hsalt, ?_⟩
    -- The mask on the data block is the block again.
    rw [pssBlock, hsalt, ← hdb, xorBytes_comm (mgfMask _ _ _ _) X,
      clearTop_unmask (by rw [length_mgfMask, hX]), htop]
  · rintro ⟨salt, hsalt, hblock⟩
    rw [pssBlock, hsalt] at hblock
    have hmask : (mgfMask h p.mgf (pssHash h p mHash salt) (n + 1 + p.sLen)).length
        = (pssDb n salt).length := by
      rw [length_mgfMask, length_pssDb, hsalt]
    obtain ⟨rfl, htail⟩ := append_inj hblock (by
      rw [length_clearTop, length_xorBytes_of_eq hmask, length_pssDb, hsalt, hX])
    obtain ⟨rfl, hlast⟩ := append_inj' htail rfl
    refine ⟨(List.cons.inj hlast).1.symm, clearTop_clearTop _, salt, hsalt, ?_, rfl⟩
    -- `DB` starts with a byte whose top bit is clear.
    have hclear : clearTop (pssDb n salt) = pssDb n salt := by
      cases n with
      | zero => rfl
      | succ n =>
        rw [pssDb, replicate_succ, cons_append, clearTop_cons]
        rfl
    rw [xorBytes_comm, clearTop_unmask hmask, hclear]

/-- `emsa_pss_verify` returns `CKR_OK` for the blocks that `emsa_pss_encode` builds from the
message hash and a salt of the right length, and for no others. -/
theorem emsa_pss_verify_exact (h : Hash) (p : PssParams) {mHash em em₀ : List UInt8}
    (hmHash : mHash.length = getShaSize p.hashAlg) (hem : em.length < 2 ^ 64)
    (hroom : getShaSize p.hashAlg + p.sLen + 2 ≤ em.length) (hem₀ : em₀.length = em.length) :
    emsaPssVerify (shaToken h) (fun _ => true) p mHash em em.length = .ok () ↔
      ∃ salt, salt.length = p.sLen ∧
        emsaPssEncode (shaToken h) (fun _ => true) salt p mHash em₀ em.length
          = .ok (em, em.length) := by
  -- Without a mask there is no `CKR_OK` on either side.
  by_cases hcond : p.mgf ≠ .md5 ∧
      ulongSub (ulongSub em.length (getShaSize p.hashAlg)) 1 ≤ 2 ^ 31 * getShaSize p.mgf
  swap
  · refine iff_of_false (fun hok => hcond (emsaPssVerify_ok_cond _ _ hok)) ?_
    rintro ⟨salt, -, hok⟩
    exact hcond (emsaPssEncode_ok_cond _ _ hok)
  obtain ⟨hm, hint⟩ := hcond
  have hdbLen : ulongSub (ulongSub em.length (getShaSize p.hashAlg)) 1
      = em.length - getShaSize p.hashAlg - 1 := by
    simp only [ulongSub]
    omega
  obtain ⟨n, hn⟩ : ∃ n, em.length = n + 1 + p.sLen + getShaSize p.hashAlg + 1 :=
    ⟨em.length - (p.sLen + getShaSize p.hashAlg + 2), by omega⟩
  have hhlen := getShaSize_le p.hashAlg
  have hmgf := getShaSize_le p.mgf
  have l : PssLengths p n em.length := ⟨hn, by omega⟩
  rw [l.dbLen] at hint
  -- The masked data block, `H` and the last byte.
  obtain ⟨X, H, t, rfl, hX, hH⟩ : ∃ X H t, em = X ++ (H ++ [t]) ∧ X.length = n + 1 + p.sLen ∧
      H.length = getShaSize p.hashAlg := by
    have hlast : em ≠ [] := ne_nil_of_length_pos (by omega)
    refine ⟨em.dropLast.take (n + 1 + p.sLen), em.dropLast.drop (n + 1 + p.sLen),
      em.getLast hlast, ?_, ?_, ?_⟩
    · rw [← append_assoc, take_append_drop, dropLast_append_getLast]
    · rw [length_take, length_dropLast]
      omega
    · rw [length_drop, length_dropLast]
      omega
  rw [emsaPssVerify_iff h l hm hint hmHash hX hH, pssBlock_iff h hX]
  refine exists_congr fun salt => and_congr_right fun hsalt => ?_
  rw [← hem₀] at l ⊢
  rw [emsaPssEncode_eq h l hm hint hmHash hsalt, Except.ok.injEq, Prod.mk.injEq]
  exact (and_iff_left rfl).symm

/-- In place of the hash functions: each byte is the sum of the message. -/
def checksumHash : Hash := fun _ bytes => .replicate _ (bytes.foldl (· + ·) 0)

/-- The block of 31 bytes for a message hash and the salt `[5]`. -/
def checksumBlock : List UInt8 :=
  pssBlock checksumHash ⟨.sha1, .sha1, 1⟩ (List.replicate 20 3) [5] 8

/-- The block is encoded and is accepted. -/
theorem emsa_pss_verify_exact_sha1 :
    emsaPssEncode (shaToken checksumHash) (fun _ => true) [5] ⟨.sha1, .sha1, 1⟩
        (List.replicate 20 3) (List.replicate 31 0) 31 = .ok (checksumBlock, 31) ∧
      emsaPssVerify (shaToken checksumHash) (fun _ => true) ⟨.sha1, .sha1, 1⟩
        (List.replicate 20 3) checksumBlock 31 = .ok () := by
  have hencode : emsaPssEncode (shaToken checksumHash) (fun _ => true) [5] ⟨.sha1, .sha1, 1⟩
      (List.replicate 20 3) (List.replicate 31 0) 31 = .ok (checksumBlock, 31) := by
    decide +kernel
  have hlength : (List.replicate 31 (0 : UInt8)).length = checksumBlock.length := rfl
  exact ⟨hencode, (emsa_pss_verify_exact checksumHash ⟨.sha1, .sha1, 1⟩ rfl (by decide) (by decide)
    hlength).mpr ⟨[5], rfl, hencode⟩⟩

end OpenCryptoki.Proofs.Common
