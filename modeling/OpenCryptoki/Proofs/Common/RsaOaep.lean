import OpenCryptoki.Proofs.Common.RsaMgf1
import OpenCryptoki.Proofs.Common.RsaOaepMove

/-!
# `OpenCryptoki.Proofs.Common.RsaOaep`: what encoding and decoding of RSA-OAEP compute

`oaepDb` is the data block of a message and `oaepBlock` is its encoded block, on lists.

* `oaepFinish_oaepDb`, `oaepFinish_invalid`: what `decode_eme_oaep` makes of an unmasked data block,
  for messages of less than `2 ^ 31` bytes. All lengths have gone through 32 bits.
* `encodeEmeOaep_eq`: `encode_eme_oaep` builds `oaepBlock`.
* `decodeEmeOaep_eq`: `decode_eme_oaep` takes the masks off the seed and the data block.
-/

set_option autoImplicit false

namespace OpenCryptoki.Proofs.Common

open Lib OpenCryptoki.Common List

/-! ### From the unmasked data block on -/

/-- `DB` with `z` bytes of padding. -/
def oaepDb (hash : List UInt8) (z : Nat) (m : List UInt8) : List UInt8 :=
  hash ++ (List.replicate z 0 ++ (1 :: m))

/-- A hash, zeros, a separator and the message. -/
@[simp] theorem length_oaepDb (hash : List UInt8) (z : Nat) (m : List UInt8) :
    (oaepDb hash z m).length = hash.length + 1 + (z + m.length) := by
  simp only [oaepDb, length_append, length_replicate, length_cons]
  omega

/-- The message is returned with its length. -/
theorem oaepDone_ok (mlen : Nat) (outData : List UInt8) :
    oaepDone (maskOf True) mlen outData = ⟨.ok, outData, ofInt (toUInt mlen)⟩ := by
  rw [oaepDone, constantTimeSelectInt, constantTimeSelectInt, constantTimeSelect_maskOf,
    constantTimeSelect_maskOf, if_pos trivial, if_pos trivial, if_pos rfl]

/-- A block that is refused returns no length. -/
theorem oaepDone_invalid (mlen : Nat) (outData : List UInt8) :
    oaepDone (maskOf False) mlen outData = ⟨.encryptedDataInvalid, outData, 0⟩ := by
  rw [oaepDone, constantTimeSelectInt, constantTimeSelectInt, constantTimeSelect_maskOf,
    constantTimeSelect_maskOf, if_neg not_false, if_neg not_false]
  rfl

section
variable {hash db outData : List UInt8} {n L : Nat}

section
variable (p : Prop) [Decidable p] (hdb : db.length = hash.length + 1 + n) (hn : n < 2 ^ 31)
  (hout : n ≤ outData.length)
include hdb hn hout

/-- The rest of `decode_eme_oaep` for given values of the search: a selection of `c` bytes of
the moved message. -/
theorem oaepFinish_eq {s : OaepScan} {mlen c : Nat} {ok : CUInt}
    (hs : s = oaepScan (db.drop hash.length) hash.length
      ⟨0, 0, maskOf (p ∧ db.take hash.length = hash)⟩)
    (hmlen : mlen = ulongSub db.length (ulongAdd s.oneIndex 1))
    (hok : ok = (s.ok &&& s.foundOneByte) &&& constantTimeGe (toUInt L) (toUInt mlen))
    (hc : c ≤ min n (L % 2 ^ 32))
    (hmask : ∀ k < n, ok &&& constantTimeLt (toUInt k) (toUInt mlen) = maskOf (k < c)) :
    ∃ t : List UInt8, oaepFinish hash db outData L (maskOf p)
        = .ok (oaepDone ok mlen (t.take c ++ outData.drop c)) ∧
      ∀ S, toUInt (ulongSub n mlen) = toUInt S → S < n →
        t.take (n - S) = (db.drop (hash.length + 1)).drop S := by
  have hread : readAt db 0 hash.length = some (db.take hash.length) := readAt_eq_some (by omega)
  have hcmp : maskOf p &&& constantTimeIsZero (if db.take hash.length = hash then 0 else 1)
      = maskOf (p ∧ db.take hash.length = hash) := by
    rw [constantTimeIsZero_eq, maskOf_and]
    refine if_congr (and_congr_right fun _ => ?_) rfl rfl
    split
    · exact iff_of_true rfl ‹_›
    · exact iff_of_false (by decide) ‹_›
  have hnEq : ulongSub (ulongSub db.length hash.length) 1 = n := by
    simp only [ulongSub]
    omega
  -- The buffer counts with at most as many bytes as the message can have.
  have hlen : ofInt (constantTimeSelectInt (constantTimeLt (toUInt n) (toUInt L)) (toUInt n)
      (toUInt L)) = min n (L % 2 ^ 32) := by
    rw [(toUInt_eq_iff L (L % 2 ^ 32)).mpr (Nat.mod_mod _ _).symm, constantTimeLt_eq,
      toNat_toUInt (by omega), toNat_toUInt (by omega), constantTimeSelectInt,
      constantTimeSelect_maskOf]
    split
    · rw [ofInt_toUInt hn, min_eq_left (by omega)]
    · rw [ofInt_toUInt (by omega), min_eq_right (by omega)]
  have hpre : (db.take (hash.length + 1)).length = hash.length + 1 :=
    length_take_of_le (by omega)
  have hrest : (db.drop (hash.length + 1)).length = n := by
    rw [length_drop]
    omega
  obtain ⟨t, hshift, ht, hspec⟩ := oaepShift_spec (ulongSub n mlen) 0 64 hn hpre hrest (by omega)
  rw [take_append_drop, pow_zero] at hshift
  have hcopy : oaepCopy ok mlen hash.length (db.take (hash.length + 1) ++ t) (min n (L % 2 ^ 32)) 0
      outData = .ok (t.take c ++ outData.drop c) := by
    have hcopy : oaepCopy ok mlen hash.length (db.take (hash.length + 1) ++ t)
      (min n (L % 2 ^ 32)) 0
        outData = .ok (t.take (min (min n (L % 2 ^ 32)) c)
          ++ outData.drop (min (min n (L % 2 ^ 32)) c)) :=
      oaepCopy_eq [] outData hpre rfl (by omega) (by omega) fun k hk => hmask k (by omega)
    rwa [min_eq_right hc] at hcopy
  refine ⟨t, ?_, fun S hS hSn => hspec S _ hS hSn (by simp [Nat.mod_one, hrest])⟩
  unfold oaepFinish
  simp only [hread, access_some, ok_bind, hcmp, hnEq, hlen, ← hs, ← hmlen, ← hok, hshift, hcopy]

omit hdb hn hout in
/-- A data block with the hash of the label, zeros and a one gives the message, unless it is
longer than the low 32 bits of the length of the buffer. -/
theorem oaepFinish_oaepDb {z : Nat} {m : List UInt8} (hn : z + m.length < 2 ^ 31)
    (hout : z + m.length ≤ outData.length) :
    oaepFinish hash (oaepDb hash z m) outData L (maskOf True)
      = .ok (if m.length ≤ L % 2 ^ 32 then ⟨.ok, m ++ outData.drop m.length, m.length⟩
          else ⟨.encryptedDataInvalid, outData, 0⟩) := by
  have htake : (oaepDb hash z m).take hash.length = hash := take_left
  have hdrop : (oaepDb hash z m).drop hash.length = replicate z 0 ++ (1 :: m) := drop_left
  obtain ⟨one, hscan, hone⟩ := oaepScan_separator
    (True ∧ (oaepDb hash z m).take hash.length = hash) z m hash.length 0
  rw [toUInt_eq_iff] at hone
  -- Only the low 32 bits of the length of the message are used.
  generalize hmlen : ulongSub (oaepDb hash z m).length (ulongAdd one 1) = mlen
  have hmlen32 : toUInt mlen = toUInt m.length := by
    rw [toUInt_eq_iff, ← hmlen, length_oaepDb]
    simp only [ulongSub, ulongAdd]
    omega
  have hok : maskOf (m.length ≤ L % 2 ^ 32)
      = (maskOf (True ∧ (oaepDb hash z m).take hash.length = hash) &&& maskOf True)
        &&& constantTimeGe (toUInt L) (toUInt mlen) := by
    rw [constantTimeGe_eq, hmlen32, toNat_toUInt (by omega), toUInt, BitVec.toNat_ofNat, maskOf_and,
      maskOf_and]
    exact if_congr (and_iff_right ⟨⟨trivial, htake⟩, trivial⟩).symm rfl rfl
  have hmask : ∀ k < z + m.length, maskOf (m.length ≤ L % 2 ^ 32)
      &&& constantTimeLt (toUInt k) (toUInt mlen)
        = maskOf (k < if m.length ≤ L % 2 ^ 32 then m.length else 0) := by
    intro k hk
    rw [constantTimeLt_eq, hmlen32, toNat_toUInt (by omega), toNat_toUInt (by omega), maskOf_and]
    refine if_congr ?_ rfl rfl
    split <;> omega
  rw [← hdrop] at hscan
  obtain ⟨t, hfinish, hspec⟩ := oaepFinish_eq True (length_oaepDb hash z m) hn hout hscan.symm
    hmlen.symm hok (by split <;> omega) hmask
  have hshift : toUInt (ulongSub (z + m.length) mlen) = toUInt z := by
    have hlt : mlen < 2 ^ 64 := hmlen ▸ Nat.mod_lt _ (by decide)
    rw [toUInt_eq_iff] at hmlen32 ⊢
    simp only [ulongSub]
    omega
  have hmoved : t.take m.length = m := by
    cases hm : m with
    | nil => rfl
    | cons b m' =>
      rw [← hm]
      have hpos : 0 < m.length := by simp [hm]
      have hmove := hspec z hshift (by omega)
      rw [Nat.add_sub_cancel_left, drop_drop, oaepDb] at hmove
      rw [hmove, add_assoc, drop_length_add_append, add_comm, drop_append]
      simp
  rw [hfinish]
  split
  · next hfits =>
    rw [maskOf_true _ hfits, hmoved]
    exact congrArg Except.ok ((oaepDone_ok mlen _).trans (by rw [hmlen32, ofInt_toUInt (by omega)]))
  · next hlong =>
    rw [maskOf_false _ hlong]
    exact congrArg Except.ok (oaepDone_invalid mlen _)

/-- Any other data block, and any data block of a block that does not start with zero, is
invalid. -/
theorem oaepFinish_invalid (h : ¬ (p ∧ ∃ z m, db = oaepDb hash z m)) :
    oaepFinish hash db outData L (maskOf p) = .ok ⟨.encryptedDataInvalid, outData, 0⟩ := by
  generalize hs : oaepScan (db.drop hash.length) hash.length
    ⟨0, 0, maskOf (p ∧ db.take hash.length = hash)⟩ = s
  have hfail : s.ok &&& s.foundOneByte = 0 := by
    by_cases hstart : p ∧ db.take hash.length = hash
    · rw [← hs]
      refine oaepScan_none _ _ hash.length 0 ?_
      rintro ⟨z, m, hsep⟩
      refine h ⟨hstart.1, z, m, ?_⟩
      conv_lhs => rw [← take_append_drop hash.length db, hstart.2, hsep]
      rfl
    · rw [← hs, oaepScan_failed _ _ (maskOf_false _ hstart)]
      exact BitVec.zero_and
  generalize hmlen : ulongSub db.length (ulongAdd s.oneIndex 1) = mlen
  have hok : maskOf False = (s.ok &&& s.foundOneByte) &&&
    constantTimeGe (toUInt L) (toUInt mlen) := by
    rw [hfail]
    exact BitVec.zero_and.symm
  have hmask : ∀ k < n, maskOf False &&& constantTimeLt (toUInt k) (toUInt mlen)
      = maskOf (k < 0) := by
    intro k _
    rw [maskOf_false (k < 0) (Nat.not_lt_zero k)]
    exact BitVec.zero_and
  obtain ⟨t, hfinish, -⟩ := oaepFinish_eq p hdb hn hout hs.symm hmlen.symm hok zero_le hmask
  rw [hfinish, oaepDone_invalid]
  rfl

end

end

/-! ### Encoding -/

/-- The encoded block with `z` bytes of padding. -/
def oaepBlock (h : Hash) (g : DigestMechanism) (hash seed : List UInt8) (z : Nat)
    (m : List UInt8) : List UInt8 :=
  let maskedDB := xorBytes (oaepDb hash z m) (mgfMask h g seed (oaepDb hash z m).length)
  [0] ++ (xorBytes (mgfMask h g maskedDB hash.length) seed ++ maskedDB)

/-- The block has the length of the modulus. -/
theorem length_oaepBlock (h : Hash) (g : DigestMechanism) {hash seed : List UInt8} (z : Nat)
    (m : List UInt8) (hseed : seed.length = hash.length) :
    (oaepBlock h g hash seed z m).length
      = 1 + hash.length + (hash.length + 1 + (z + m.length)) := by
  simp only [oaepBlock, length_append, length_singleton, length_xorBytes, length_mgfMask,
    length_oaepDb, hseed, min_self, add_assoc]

/-- The hash of the label, the padding, the separator and the message go into a block of zeros. -/
theorem oaepPieces_eq (hash : List UInt8) (z : Nat) (m : List UInt8) :
    let front := replicate (1 + hash.length) (0 : UInt8)
    let zeros := fun n => replicate n (0 : UInt8)
    writeAt (zeros (1 + hash.length + (hash.length + 1 + (z + m.length)))) (hash.length + 1) hash
        = some (front ++ (hash ++ (zeros z ++ ([0] ++ zeros m.length)))) ∧
      writeAt (front ++ (hash ++ (zeros z ++ ([0] ++ zeros m.length))))
          (hash.length + 1 + hash.length) (zeros z)
        = some (front ++ (hash ++ (zeros z ++ ([0] ++ zeros m.length)))) ∧
      writeAt (front ++ (hash ++ (zeros z ++ ([0] ++ zeros m.length))))
          (hash.length + 1 + (hash.length + z)) [1]
        = some (front ++ (hash ++ (zeros z ++ ([1] ++ zeros m.length)))) ∧
      writeAt (front ++ (hash ++ (zeros z ++ ([1] ++ zeros m.length))))
          (hash.length + 1 + (hash.length + z + 1)) m
        = some (front ++ oaepDb hash z m) := by
  intro front zeros
  have hfront : front.length = hash.length + 1 := by
    rw [length_replicate, add_comm]
  have hzeros : ∀ n, (zeros n).length = n := fun n => length_replicate
  refine ⟨?_, ?_, ?_, ?_⟩
  · refine writeAt_of_eq front (zeros hash.length) _ ?_ hfront.symm (hzeros _).symm
    have hone : [(0 : UInt8)] = replicate 1 0 := rfl
    simp only [front, zeros, hone, replicate_append_replicate]
    congr 1
    omega
  · have hwrite := writeAt_middle (front ++ hash) (zeros z) ([0] ++ zeros m.length) rfl
    rwa [length_append, hfront, append_assoc] at hwrite
  · have hwrite := writeAt_middle (front ++ (hash ++ zeros z)) [0] (zeros m.length)
      (show [(1 : UInt8)].length = _ from rfl)
    rw [length_append, length_append, hfront, hzeros] at hwrite
    simpa only [append_assoc] using hwrite
  · have hwrite := writeAt_middle (front ++ (hash ++ (zeros z ++ [1]))) (zeros m.length) []
      (hzeros m.length).symm
    rw [length_append, length_append, length_append, hfront, hzeros] at hwrite
    simp only [append_assoc, append_nil] at hwrite
    exact hwrite

section
variable (h : Hash) {g : DigestMechanism} {hash : List UInt8}

/-- The seed is written to its buffer. -/
theorem rngGenerateAt_seed {seed : List UInt8} (hhash : hash.length ≤ MAX_SHA_HASH_SIZE)
    (hseed : seed.length = hash.length) :
    rngGenerateAt seed (replicate MAX_SHA_HASH_SIZE 0) 0 hash.length
      = .ok (seed ++ replicate (MAX_SHA_HASH_SIZE - hash.length) 0) := by
  have hzeros : replicate MAX_SHA_HASH_SIZE (0 : UInt8)
      = replicate hash.length 0 ++ replicate (MAX_SHA_HASH_SIZE - hash.length) 0 := by
    rw [replicate_append_replicate, Nat.add_sub_cancel' hhash]
  have hrng := rngGenerateAt_eq [] (replicate hash.length 0)
    (replicate (MAX_SHA_HASH_SIZE - hash.length) 0) (hseed.trans length_replicate.symm)
  rw [hzeros, ← hseed]
  rw [← hseed] at hrng
  exact hrng

/-- `encode_eme_oaep` writes the block of the seed. -/
theorem encodeEmeOaep_eq (hg : g ≠ .md5) (hhash : hash.length ≤ MAX_SHA_HASH_SIZE)
    {seed m em₀ : List UInt8} {z : Nat} (hseed : seed.length = hash.length)
    (hk : em₀.length = 1 + hash.length + (hash.length + 1 + (z + m.length)))
    (hint : hash.length + 1 + (z + m.length) ≤ 2 ^ 31 * getShaSize g) :
    encodeEmeOaep (shaToken h) (fun _ => true) seed m em₀ em₀.length (some g) hash
      = .ok (oaepBlock h g hash seed z m) := by
  have hsize := getShaSize_le g
  have hroom : ¬ em₀.length < ulongAdd m.length (2 * hash.length + 2) := by
    simp only [ulongAdd]
    omega
  have hps : ulongSub (ulongSub (ulongSub em₀.length m.length) (2 * hash.length)) 2 = z := by
    simp only [ulongSub]
    omega
  have hdbLen : ulongSub (ulongSub em₀.length hash.length) 1
      = hash.length + 1 + (z + m.length) := by
    simp only [ulongSub]
    omega
  have hclear : writeAt em₀ 0 (replicate em₀.length 0) = some (replicate em₀.length 0) := by
    simpa using writeAt_middle [] em₀ [] length_replicate
  obtain ⟨hw₁, hw₂, hw₃, hw₄⟩ := oaepPieces_eq hash z m
  have hfront : replicate (1 + hash.length) (0 : UInt8) = [0] ++ replicate hash.length 0 :=
    replicate_add 1 hash.length 0
  rw [hfront] at hw₁ hw₂ hw₃ hw₄
  -- The mask of the data block.
  have hseedAt : readAt (seed ++ replicate (MAX_SHA_HASH_SIZE - hash.length) 0) 0 hash.length
      = some seed := readAt_of_eq [] seed _ rfl rfl hseed.symm
  have hdb := length_oaepDb hash z m
  let mask := mgfMask h g seed (hash.length + 1 + (z + m.length))
  have hmaskLen : mask.length = (oaepDb hash z m).length := by rw [length_mgfMask, hdb]
  have hmask : mgf1 (shaToken h) true (.ok seed)
      (replicate (hash.length + 1 + (z + m.length)) 0) 0 (hash.length + 1 + (z + m.length))
        (some g) = .ok mask := by
    simpa using mgf1_eq h g seed hg [] [] (length_replicate (a := 0)) hint
  let maskedDB := xorBytes (oaepDb hash z m) mask
  have hmaskedDB : maskedDB.length = hash.length + 1 + (z + m.length) := by
    rw [length_xorBytes_of_eq hmaskLen, hdb]
  have hxor : xorAt ([0] ++ replicate hash.length 0 ++ oaepDb hash z m) (hash.length + 1) mask 0
      (hash.length + 1 + (z + m.length)) = .ok ([0] ++ replicate hash.length 0 ++ maskedDB) := by
    have hoff : hash.length + 1 = ([0] ++ replicate hash.length (0 : UInt8)).length := by simp
    have hxor := xorAt_eq _ (oaepDb hash z m) [] [] mask [] hoff rfl hdb.symm hmaskLen
    rw [append_nil, append_nil, append_nil] at hxor
    exact hxor
  -- The mask of the seed.
  have hzero : writeAt ([0] ++ replicate hash.length 0 ++ maskedDB) 1
      (replicate hash.length 0) = some ([0] ++ replicate hash.length 0 ++ maskedDB) := by
    rw [append_assoc]
    exact writeAt_of_eq [0] _ maskedDB rfl rfl rfl
  have hread : readAt ([0] ++ replicate hash.length 0 ++ maskedDB) (hash.length + 1)
      (hash.length + 1 + (z + m.length)) = some maskedDB :=
    readAt_of_eq ([0] ++ replicate hash.length 0) maskedDB [] (by simp) (by simp)
      hmaskedDB.symm
  have hmask₂ : mgf1 (shaToken h) true (.ok maskedDB)
      ([0] ++ replicate hash.length 0 ++ maskedDB) 1 hash.length (some g)
        = .ok ([0] ++ (mgfMask h g maskedDB hash.length ++ maskedDB)) := by
    rw [append_assoc]
    exact mgf1_eq h g maskedDB hg [0] maskedDB length_replicate (by
      omega)
  have hxor₂ : xorAt ([0] ++ (mgfMask h g maskedDB hash.length ++ maskedDB)) 1
      (seed ++ replicate (MAX_SHA_HASH_SIZE - hash.length) 0) 0 hash.length
        = .ok ([0] ++ (xorBytes (mgfMask h g maskedDB hash.length) seed ++ maskedDB)) :=
    xorAt_eq [0] _ maskedDB [] seed _ rfl rfl (length_mgfMask h g maskedDB hash.length).symm
      (by rw [length_mgfMask, hseed])
  unfold encodeEmeOaep
  simp only [check_of hroom, check_true, hps, hdbLen, hclear, access_some, ok_bind]
  rw [hk]
  simp only [hw₁, hw₂, hw₃, hw₄, access_some, ok_bind, rngGenerateAt_seed hhash hseed, hseedAt,
    hmask, hxor, hzero, hread, hmask₂, hxor₂]
  simp only [oaepBlock, hdb, maskedDB, mask]

/-! ### Decoding -/

/-- What follows a success is done. -/
theorem orDone_ok {α : Type} (a : α) (failed : OaepResult) (next : α → Except Stop OaepResult) :
    orDone (.ok a) failed next = next a := rfl

/-- `decode_eme_oaep` on a block that is cut into its first byte, the masked seed and the masked
data block. -/
theorem decodeEmeOaep_eq (hg : g ≠ .md5) (hhash : hash.length ≤ MAX_SHA_HASH_SIZE) {y : UInt8}
    {X Y : List UInt8} {n : Nat} (hX : X.length = hash.length)
    (hY : Y.length = hash.length + 1 + n) (hint : hash.length + 1 + n ≤ 2 ^ 31 * getShaSize g)
    (outData : List UInt8) (L : Nat) :
    decodeEmeOaep (shaToken h) (fun _ => true) ([y] ++ (X ++ Y)) outData L (some g) hash
      = oaepFinish hash (xorBytes (mgfMask h g (xorBytes (mgfMask h g Y hash.length) X) Y.length) Y)
          outData L (maskOf (y = 0)) := by
  have hsize := getShaSize_le g
  have hem : ([y] ++ (X ++ Y)).length = 1 + hash.length + (hash.length + 1 + n) := by
    simp only [length_append, length_singleton, hX, hY, add_assoc]
  have hshort : ¬ ([y] ++ (X ++ Y)).length < 2 * hash.length + 2 := by omega
  have hdblen : ulongSub (ulongSub ([y] ++ (X ++ Y)).length hash.length) 1 = Y.length := by
    simp only [ulongSub]
    omega
  have hread : readAt ([y] ++ (X ++ Y)) (1 + hash.length) Y.length = some Y :=
    readAt_of_eq ([y] ++ X) Y [] (by simp) (by simp [hX, add_comm]) rfl
  -- The seed.
  let mask := mgfMask h g Y hash.length
  have hmaskLen : mask.length = hash.length := length_mgfMask h g Y hash.length
  have hmask : mgf1 (shaToken h) true (.ok Y) (replicate MAX_SHA_HASH_SIZE 0) 0 hash.length
      (some g) = .ok (mask ++ replicate (MAX_SHA_HASH_SIZE - hash.length) 0) := by
    rw [← Nat.add_sub_cancel' hhash, replicate_add, Nat.add_sub_cancel_left]
    exact mgf1_eq h g Y hg [] _ length_replicate (by have := getShaSize_pos g; omega)
  let seed := xorBytes mask X
  have hseedLen : seed.length = hash.length := by
    rw [length_xorBytes_of_eq (hX.trans hmaskLen.symm), hmaskLen]
  have hxor : xorAt (mask ++ replicate (MAX_SHA_HASH_SIZE - hash.length) 0) 0
      ([y] ++ (X ++ Y)) 1 hash.length
        = .ok (seed ++ replicate (MAX_SHA_HASH_SIZE - hash.length) 0) :=
    xorAt_eq [] mask _ [y] X Y rfl rfl hmaskLen.symm (hX.trans hmaskLen.symm)
  have hseedAt : readAt (seed ++ replicate (MAX_SHA_HASH_SIZE - hash.length) 0) 0 hash.length
      = some seed := readAt_of_eq [] seed _ rfl rfl hseedLen.symm
  -- The data block.
  let mask₂ := mgfMask h g seed Y.length
  have hmask₂Len : mask₂.length = Y.length := length_mgfMask h g seed Y.length
  have hmask₂ : mgf1 (shaToken h) true (.ok seed) (replicate Y.length 0) 0 Y.length (some g)
      = .ok mask₂ := by
    simpa using mgf1_eq h g seed hg [] [] (length_replicate (a := 0)) (by rwa [hY])
  have hxor₂ : xorAt mask₂ 0 ([y] ++ (X ++ Y)) (1 + hash.length) Y.length
      = .ok (xorBytes mask₂ Y) := by
    have hoff : 1 + hash.length = ([y] ++ X).length := by
      rw [length_append, hX]
      rfl
    have hxor := xorAt_eq [] mask₂ [] ([y] ++ X) Y [] rfl hoff hmask₂Len.symm hmask₂Len.symm
    rw [append_nil, append_nil, append_nil, append_assoc] at hxor
    exact hxor
  have hfirst : ([y] ++ (X ++ Y))[0]? = some y := rfl
  unfold decodeEmeOaep
  simp only [if_neg hshort, Bool.true_eq_false, if_false, hdblen, hfirst, access_some, ok_bind,
    hread,
    hmask, orDone_ok, hxor, hseedAt, hmask₂, constantTimeIsZero_byteToUInt]
  rw [hxor₂, ok_bind]

end

/-! ### A mask that cannot be made -/

/-- The two masks of `decode_eme_oaep`. -/
def decodeMasks (tok : HashToken) (alloc : Nat → Bool) (emData : List UInt8)
    (mgf : Option DigestMechanism) (hash : List UInt8) : Except Stop (List UInt8) := do
  let hlen := hash.length
  let dblen := ulongSub (ulongSub emData.length hlen) 1
  let seed ← mgf1 tok (alloc 1) (access (readAt emData (1 + hlen) dblen))
    (List.replicate MAX_SHA_HASH_SIZE 0) 0 hlen mgf
  let seed ← xorAt seed 0 emData 1 hlen
  mgf1 tok (alloc 2) (access (readAt seed 0 hlen)) (List.replicate dblen 0) 0 dblen mgf

section
variable {tok : HashToken} {alloc : Nat → Bool} {emData hash : List UInt8} {rc : CkRv}
  {mgf : Option DigestMechanism}

/-- The exclusive or returns no code. -/
theorem noRc_xorAt (b c : List UInt8) (off cOff n : Nat) : NoRc (xorAt b off c cOff n) :=
  .bind (.access _) fun _ => .bind (.access _) fun _ => .access _

/-- Only the first byte counts then. -/
theorem decodeEmeOaep_of_failed {y : UInt8} (hlong : 2 * hash.length + 2 ≤ emData.length)
    (halloc : alloc 0 = true) (hfirst : emData[0]? = some y)
    (hfail : decodeMasks tok alloc emData mgf hash = .error (.rc rc)) (outData : List UInt8)
    (outDataLen : Nat) :
    decodeEmeOaep tok alloc emData outData outDataLen mgf hash =
      .ok (oaepDone (maskOf (y = 0)) ULONG_MAX outData) := by
  unfold decodeEmeOaep
  simp only [if_neg hlong.not_gt, halloc, Bool.true_eq_false, if_false, hfirst,
    access_some, ok_bind, constantTimeIsZero_byteToUInt]
  unfold decodeMasks at hfail
  dsimp only at hfail
  generalize mgf1 tok (alloc 1) _ _ 0 hash.length mgf = first at hfail ⊢
  cases first with
  | error stop =>
    cases stop with
    | fault => cases hfail
    | rc _ => rfl
  | ok seed =>
    rw [ok_bind] at hfail
    rw [orDone_ok]
    cases hxor : xorAt seed 0 emData 1 hash.length with
    | error stop =>
      rw [hxor, error_bind, Except.error.injEq] at hfail
      exact absurd (hfail ▸ hxor) (noRc_xorAt _ _ _ _ _ rc)
    | ok seed' =>
      rw [hxor, ok_bind] at hfail
      rw [ok_bind, hfail]
      rfl

end

/-- If a mask cannot be made, whatever the reason, the decoder returns an error, writes nothing and
reports no bytes if and only if the first byte of the block is not zero. -/
theorem oaep_fails_closed_iff (tok : HashToken) (alloc : Nat → Bool)
    (emData outData hash : List UInt8) (outDataLen : Nat) (mgf : Option DigestMechanism) (rc : CkRv)
    (hlong : 2 * hash.length + 2 ≤ emData.length) (halloc : alloc 0 = true)
    (hfail : decodeMasks tok alloc emData mgf hash = .error (.rc rc)) :
    (∃ rv, decodeEmeOaep tok alloc emData outData outDataLen mgf hash = .ok ⟨rv, outData, 0⟩ ∧
      rv ≠ .ok) ↔ emData.head? ≠ some 0 := by
  obtain ⟨y, rest, rfl⟩ := exists_cons_of_length_pos (l := emData) (by omega)
  have hdone : oaepDone (maskOf (y = 0)) ULONG_MAX outData
      = if y = 0 then ⟨.ok, outData, ULONG_MAX⟩ else ⟨.encryptedDataInvalid, outData, 0⟩ := by
    by_cases hy : y = 0
    · rw [maskOf_true _ hy, if_pos hy]
      rfl
    · rw [maskOf_false _ hy, if_neg hy]
      rfl
  rw [decodeEmeOaep_of_failed hlong halloc rfl hfail, hdone, head?_cons, ne_eq,
    Option.some.injEq]
  split
  · next hy => exact iff_of_false (by rintro ⟨rv, h, hrv⟩; cases h) (not_not.mpr hy)
  · next hy => exact iff_of_true ⟨_, rfl, nofun⟩ hy

/-- An unknown mask generation function. -/
theorem oaep_fails_closed_unknown_mgf :
    ∃ rv, decodeEmeOaep ⟨fun _ _ => .ok (.replicate _ 0)⟩ (fun _ => true)
      (List.replicate 42 1) [7] 1
      none (List.replicate 20 0) = .ok ⟨rv, [7], 0⟩ ∧ rv ≠ .ok :=
  (oaep_fails_closed_iff _ _ _ _ _ _ _ .functionFailed (by decide) rfl rfl).mpr (by decide)

/-- With a first byte of zero the caller is told that there are `2 ^ 64 - 1` bytes. -/
theorem oaep_accepts_without_mask :
    decodeEmeOaep ⟨fun _ _ => .ok (.replicate _ 0)⟩ (fun _ => true) (List.replicate 42 0) [7] 1 none
      (List.replicate 20 0) = .ok ⟨.ok, [7], 2 ^ 64 - 1⟩ := by
  rfl

end OpenCryptoki.Proofs.Common
