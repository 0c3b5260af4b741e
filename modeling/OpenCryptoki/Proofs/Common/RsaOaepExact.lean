import OpenCryptoki.Proofs.Common.RsaOaep

/-!
# `OpenCryptoki.Proofs.Common.RsaOaepExact`: which blocks RSA-OAEP decodes

`OaepExact` says that `decode_eme_oaep` inverts `encode_eme_oaep` and refuses everything else, for
blocks of `k` bytes and output buffers of `L` bytes. `oaep_exact_iff` says for which `k` and `L`
this holds. It needs three things.

* The mask generation function has to be known. With an unknown one both calls of `mgf1` fail, and
  `decode_eme_oaep` then returns `CKR_OK` for every block that starts with a zero byte.
* The longest message, of `k - 2 * hlen - 2` bytes, has to be shorter than `2 ^ 31` bytes. The
  length is returned through `constant_time_select_int`.
* It must not be longer than `L % 2 ^ 32`. The length of the buffer is compared by
  `constant_time_ge`, which gets its low 32 bits.
-/

set_option autoImplicit false

namespace OpenCryptoki.Proofs.Common

open Lib OpenCryptoki.Common
open List (append_inj length_replicate replicate)

/-- `encode_eme_oaep` turns the message into the block with the seed, whatever the block was
before. -/
def OaepEncodes (h : Hash) (mgf : Option DigestMechanism) (hash m seed em : List UInt8) : Prop :=
  ∀ em₀ : List UInt8, em₀.length = em.length →
    encodeEmeOaep (shaToken h) (fun _ => true) seed m em₀ em.length mgf hash = .ok em

/-- Decoding is exact for blocks of `k` bytes and output buffers of `L` bytes. -/
structure OaepExact (h : Hash) (mgf : Option DigestMechanism) (hash : List UInt8) (k L : Nat) :
    Prop where
  decode_iff : ∀ em out m : List UInt8, em.length = k → out.length = L →
    (decodeEmeOaep (shaToken h) (fun _ => true) em out L mgf hash
        = .ok ⟨.ok, m ++ out.drop m.length, m.length⟩ ↔
      ∃ seed, seed.length = hash.length ∧ OaepEncodes h mgf hash m seed em)
  round_trip : ∀ m seed out : List UInt8, m.length ≤ k - 2 * hash.length - 2 →
    seed.length = hash.length → out.length = L →
    ∃ em, em.length = k ∧ OaepEncodes h mgf hash m seed em ∧
      decodeEmeOaep (shaToken h) (fun _ => true) em out L mgf hash
        = .ok ⟨.ok, m ++ out.drop m.length, m.length⟩
  refuses : ∀ em out : List UInt8, em.length = k → out.length = L →
    (¬ ∃ m seed, seed.length = hash.length ∧ OaepEncodes h mgf hash m seed em) →
    decodeEmeOaep (shaToken h) (fun _ => true) em out L mgf hash
      = .ok ⟨.encryptedDataInvalid, out, 0⟩

/-! ### Blocks and messages -/

section
variable {h : Hash} {g : DigestMechanism} {hash : List UInt8} {n : Nat} {em m seed out : List UInt8}
  {L : Nat}

/-- The first byte, the masked seed and the masked data block of a block. -/
theorem exists_oaep_parts (hem : em.length = 1 + hash.length + (hash.length + 1 + n)) :
    ∃ y X Y, em = [y] ++ (X ++ Y) ∧ X.length = hash.length ∧ Y.length = hash.length + 1 + n := by
  cases em with
  | nil =>
    rw [List.length_nil] at hem
    omega
  | cons y rest =>
    rw [List.length_cons] at hem
    refine ⟨y, rest.take hash.length, rest.drop hash.length, ?_, ?_, ?_⟩
    · rw [List.take_append_drop]
      rfl
    · exact List.length_take_of_le (by omega)
    · rw [List.length_drop]
      omega

/-- A block unmasks to the data block of a message if and only if it is a block of the message. -/
theorem oaepBlock_iff {y : UInt8} {X Y : List UInt8} {z : Nat} (hX : X.length = hash.length)
    (hY : Y.length = hash.length + 1 + (z + m.length)) :
    (y = 0 ∧ xorBytes (mgfMask h g (xorBytes (mgfMask h g Y hash.length) X) Y.length) Y
        = oaepDb hash z m) ↔
      ∃ seed, seed.length = hash.length ∧ oaepBlock h g hash seed z m = [y] ++ (X ++ Y) := by
  have hdb := length_oaepDb hash z m
  have hmaskX : X.length = (mgfMask h g Y hash.length).length := by rw [length_mgfMask, hX]
  have hseedLen : (xorBytes (mgfMask h g Y hash.length) X).length = hash.length := by
    rw [length_xorBytes_of_eq hmaskX, length_mgfMask]
  constructor
  · rintro ⟨rfl, hunmask⟩
    refine ⟨xorBytes (mgfMask h g Y hash.length) X, hseedLen, ?_⟩
    have hmaskY := length_mgfMask h g (xorBytes (mgfMask h g Y hash.length) X) Y.length
    -- Both masks are put on again.
    have hmaskedDB : xorBytes (oaepDb hash z m)
        (mgfMask h g (xorBytes (mgfMask h g Y hash.length) X) (oaepDb hash z m).length) = Y := by
      rw [hdb, ← hY, ← hunmask, xorBytes_comm _ Y, xorBytes_xorBytes hmaskY]
    simp only [oaepBlock]
    rw [hmaskedDB, xorBytes_comm (mgfMask h g Y hash.length) (xorBytes _ X),
      xorBytes_comm (mgfMask h g Y hash.length) X, xorBytes_xorBytes hmaskX.symm]
  · rintro ⟨seed, hseed, hblock⟩
    obtain ⟨hy, hblock⟩ := append_inj hblock rfl
    have hmaskedSeed : ∀ W, (xorBytes (mgfMask h g W hash.length) seed).length = hash.length := by
      intro W
      rw [length_xorBytes_of_eq (by rw [length_mgfMask, hseed]), length_mgfMask]
    obtain ⟨hXeq, hYeq⟩ := append_inj hblock (by rw [hmaskedSeed, hX])
    refine ⟨(List.cons.inj hy).1.symm, ?_⟩
    rw [hYeq] at hXeq
    have hseedEq : xorBytes (mgfMask h g Y hash.length) X = seed := by
      rw [← hXeq, xorBytes_comm (mgfMask h g Y hash.length) seed, xorBytes_comm,
        xorBytes_xorBytes (by rw [length_mgfMask, hseed])]
    rw [hseedEq, ← hYeq, xorBytes_comm, length_xorBytes_of_eq (length_mgfMask h g seed _),
      xorBytes_xorBytes (length_mgfMask h g seed _)]

/-- `encode_eme_oaep` returns `CKR_OK` only for a message that fits, and with a mask. -/
theorem encodeEmeOaep_ok_cond {tok : HashToken} {alloc : Nat → Bool} {rand em₀ : List UInt8}
    {k : Nat} {mgf : Option DigestMechanism}
    (hok : encodeEmeOaep tok alloc rand m em₀ k mgf hash = .ok em) :
    ¬ k < ulongAdd m.length (2 * hash.length + 2) ∧ (m.length = 0 ∨ m.length ≤ em₀.length) ∧
      ∃ g, mgf = some g ∧ g ≠ .md5 ∧
        ulongSub (ulongSub k hash.length) 1 ≤ 2 ^ 31 * getShaSize g := by
  simp only [encodeEmeOaep, bind_eq_ok] at hok
  obtain ⟨_, hroom, em₁, h₁, em₂, h₂, em₃, h₃, em₄, h₄, em₅, h₅, seed, -, _, -,
    mask, hmask, -⟩ := hok
  refine ⟨check_eq_ok.mp hroom, ?_, ?_⟩
  · have hlen₁ := length_of_writeAt (access_eq_ok.mp h₁)
    have hlen₂ := length_of_writeAt (access_eq_ok.mp h₂)
    have hlen₃ := length_of_writeAt (access_eq_ok.mp h₃)
    have hlen₄ := length_of_writeAt (access_eq_ok.mp h₄)
    have hle := writeAt_le (access_eq_ok.mp h₅)
    omega
  · cases mgf with
    | none => cases hmask
    | some g => exact ⟨g, rfl, mgf1_ok_cond tok g hmask⟩

variable (hg : g ≠ .md5) (hhash : hash.length ≤ MAX_SHA_HASH_SIZE)
  (hint : hash.length + 1 + n ≤ 2 ^ 31 * getShaSize g)
include hg hhash hint

/-- The encodings of a message are its blocks. -/
theorem oaepEncodes_iff (hseed : seed.length = hash.length)
    (hem : em.length = 1 + hash.length + (hash.length + 1 + n)) :
    OaepEncodes h (some g) hash m seed em ↔
      ∃ z, z + m.length = n ∧ oaepBlock h g hash seed z m = em := by
  have hsize := getShaSize_le g
  constructor
  · intro henc
    obtain ⟨hroom, hfits, -⟩ := encodeEmeOaep_ok_cond (henc em rfl)
    have hlen : m.length ≤ n := by
      simp only [ulongAdd] at hroom
      omega
    have hz : n - m.length + m.length = n := Nat.sub_add_cancel hlen
    refine ⟨n - m.length, hz, ?_⟩
    have hblock := henc em rfl
    rw [encodeEmeOaep_eq h hg hhash hseed (by rw [hz]; exact hem) (by rwa [hz])] at hblock
    exact Except.ok.inj hblock
  · rintro ⟨z, rfl, rfl⟩ em₀ hem₀
    rw [← hem₀]
    exact encodeEmeOaep_eq h hg hhash hseed (hem₀.trans hem) hint

variable (hn : n < 2 ^ 31)
include hn

/-- An encoding is decoded to its message, unless the message is longer than the low 32 bits of the
length of the buffer. -/
theorem decodeEmeOaep_encodes (hseed : seed.length = hash.length)
    (hem : em.length = 1 + hash.length + (hash.length + 1 + n)) (hout : n ≤ out.length)
    (henc : OaepEncodes h (some g) hash m seed em) :
    decodeEmeOaep (shaToken h) (fun _ => true) em out L (some g) hash
      = .ok (if m.length ≤ L % 2 ^ 32 then ⟨.ok, m ++ out.drop m.length, m.length⟩
          else ⟨.encryptedDataInvalid, out, 0⟩) := by
  obtain ⟨z, rfl, hblock⟩ := (oaepEncodes_iff hg hhash hint hseed hem).mp henc
  obtain ⟨y, X, Y, rfl, hX, hY⟩ := exists_oaep_parts hem
  obtain ⟨hy, hunmask⟩ := (oaepBlock_iff hX hY).mpr ⟨seed, hseed, hblock⟩
  rw [decodeEmeOaep_eq h hg hhash hX hY hint, hunmask, maskOf_true _ hy]
  exact oaepFinish_oaepDb hn hout

/-- Everything else is refused. -/
theorem decodeEmeOaep_refuses (hem : em.length = 1 + hash.length + (hash.length + 1 + n))
    (hout : n ≤ out.length)
    (hnone : ¬ ∃ m seed, seed.length = hash.length ∧ OaepEncodes h (some g) hash m seed em) :
    decodeEmeOaep (shaToken h) (fun _ => true) em out L (some g) hash
      = .ok ⟨.encryptedDataInvalid, out, 0⟩ := by
  obtain ⟨y, X, Y, rfl, hX, hY⟩ := exists_oaep_parts hem
  rw [decodeEmeOaep_eq h hg hhash hX hY hint]
  have hdbLen : (xorBytes (mgfMask h g (xorBytes (mgfMask h g Y hash.length) X) Y.length) Y).length
      = hash.length + 1 + n := by
    rw [length_xorBytes_of_eq (length_mgfMask h g _ Y.length).symm, length_mgfMask, hY]
  refine oaepFinish_invalid (y = 0) hdbLen hn hout ?_
  rintro ⟨hy, z, m, hdb⟩
  have hz : z + m.length = n := by
    rw [hdb, length_oaepDb] at hdbLen
    omega
  subst hz
  obtain ⟨seed, hseed, hblock⟩ := (oaepBlock_iff hX hY).mp ⟨hy, hdb⟩
  exact hnone ⟨m, seed, hseed, (oaepEncodes_iff hg hhash hint hseed hem).mpr ⟨z, rfl, hblock⟩⟩

end

/-! ### Exactness -/

/-- The length that `decode_eme_oaep` returns has gone through an `int`, and through a comparison
with the low 32 bits of the length of the buffer. -/
theorem oaepFinish_outDataLen {hash db out : List UInt8} {L : Nat} {ok : CUInt} {r : OaepResult}
    (hok : oaepFinish hash db out L ok = .ok r) :
    ∃ v : CUInt, r.outDataLen = ofInt v ∧ v.toNat ≤ L % 2 ^ 32 := by
  simp only [oaepFinish, bind_eq_ok] at hok
  obtain ⟨_, -, _, -, _, -, hr⟩ := hok
  refine ⟨_, congrArg OaepResult.outDataLen (Except.ok.inj hr).symm, ?_⟩
  generalize ulongSub db.length _ = mlen
  have hL : (toUInt L).toNat = L % 2 ^ 32 := BitVec.toNat_ofNat L 32
  rw [constantTimeGe_eq, constantTimeSelectInt, constantTimeSelect]
  show (_ ||| (_ &&& 0#32)).toNat ≤ _
  rw [BitVec.and_zero, BitVec.or_zero, BitVec.and_assoc, BitVec.toNat_and]
  refine Nat.and_le_right.trans ?_
  by_cases hle : (toUInt mlen).toNat ≤ (toUInt L).toNat
  · rw [maskOf_true _ hle, BitVec.allOnes_and]
    exact hL ▸ hle
  · rw [maskOf_false _ hle]
    show (0#32 &&& _).toNat ≤ _
    rw [BitVec.zero_and]
    exact zero_le

/-- Decoding is exact for a known mask generation function, messages of less than `2 ^ 31` bytes
and buffers whose length has low 32 bits that are not below the length of the longest message, and
only then. -/
theorem oaep_exact_iff (h : Hash) {alg : DigestMechanism} (hash : Vector UInt8 (getShaSize alg))
    (mgf : Option DigestMechanism) {k L : Nat} (hk : 2 * getShaSize alg + 2 ≤ k) (hkL : k ≤ L)
    (hL : L < 2 ^ 64) :
    OaepExact h mgf hash.toList k L ↔
      (mgf ≠ none ∧ mgf ≠ some .md5) ∧ k - 2 * getShaSize alg - 2 < 2 ^ 31 ∧
        k - 2 * getShaSize alg - 2 ≤ L % 2 ^ 32 := by
  have hlen : hash.toList.length = getShaSize alg := Vector.length_toList
  have hhash : hash.toList.length ≤ MAX_SHA_HASH_SIZE := by
    rw [hlen]
    exact getShaSize_le alg
  have hmax : MAX_SHA_HASH_SIZE = 64 := rfl
  generalize hash.toList = label at hlen hhash ⊢
  rw [← hlen] at hk ⊢
  obtain ⟨n, rfl⟩ : ∃ n, k = 1 + label.length + (label.length + 1 + n) :=
    ⟨k - (2 * label.length + 2), by omega⟩
  rw [show 1 + label.length + (label.length + 1 + n) - 2 * label.length - 2 = n by omega]
  constructor
  · intro hexact
    -- The longest message there and back.
    obtain ⟨em, hem, henc, hdec⟩ := hexact.round_trip (replicate n 0)
      (replicate label.length 0) (replicate L 0)
      (by rw [length_replicate]; omega) length_replicate length_replicate
    obtain ⟨-, -, g, rfl, hg, hint⟩ := encodeEmeOaep_ok_cond (henc em rfl)
    have hsize := getShaSize_le g
    rw [hem, show ulongSub (ulongSub (1 + label.length + (label.length + 1 + n)) label.length) 1
      = label.length + 1 + n by simp only [ulongSub]; omega] at hint
    obtain ⟨y, X, Y, rfl, hX, hY⟩ := exists_oaep_parts hem
    rw [decodeEmeOaep_eq h hg hhash hX hY hint] at hdec
    obtain ⟨v, hv, hvL⟩ := oaepFinish_outDataLen hdec
    change (replicate n (0 : UInt8)).length = ofInt v at hv
    rw [length_replicate, ofInt_eq] at hv
    refine ⟨⟨Option.some_ne_none g, fun hmd5 => hg (Option.some.inj hmd5)⟩, ?_⟩
    split at hv <;> omega
  · rintro ⟨⟨hsome, hmd5⟩, hn, hLn⟩
    obtain ⟨g, rfl⟩ := Option.ne_none_iff_exists'.mp hsome
    have hg : g ≠ .md5 := fun hg => hmd5 (by rw [hg])
    have hint : label.length + 1 + n ≤ 2 ^ 31 * getShaSize g := by
      have hpos : 20 ≤ getShaSize g := by
        revert hg
        cases g <;> decide
      omega
    have hvalid : ∀ m seed em out : List UInt8, seed.length = label.length →
        em.length = 1 + label.length + (label.length + 1 + n) → out.length = L →
        OaepEncodes h (some g) label m seed em →
        decodeEmeOaep (shaToken h) (fun _ => true) em out L (some g) label
          = .ok ⟨.ok, m ++ out.drop m.length, m.length⟩ := by
      intro m seed em out hseed hem hout henc
      obtain ⟨z, hz, -⟩ := (oaepEncodes_iff hg hhash hint hseed hem).mp henc
      rw [decodeEmeOaep_encodes hg hhash hint hn hseed hem (by omega) henc, if_pos (by omega)]
    have hinvalid : ∀ em out : List UInt8,
        em.length = 1 + label.length + (label.length + 1 + n) → out.length = L →
        (¬ ∃ m seed, seed.length = label.length ∧ OaepEncodes h (some g) label m seed em) →
        decodeEmeOaep (shaToken h) (fun _ => true) em out L (some g) label
          = .ok ⟨.encryptedDataInvalid, out, 0⟩ := fun em out hem hout hnone =>
      decodeEmeOaep_refuses hg hhash hint hn hem (by omega) hnone
    refine ⟨fun em out m hem hout => ⟨fun hdec => ?_, ?_⟩, ?_, hinvalid⟩
    · -- The block is the encoding of some message, which can only be `m`.
      by_cases hsome : ∃ m seed, seed.length = label.length ∧ OaepEncodes h (some g) label m seed em
      · obtain ⟨m', seed, hseed, henc⟩ := hsome
        rw [hvalid m' seed em out hseed hem hout henc, Except.ok.injEq, OaepResult.mk.injEq] at hdec
        obtain ⟨-, hdata, hlen⟩ := hdec
        obtain ⟨rfl, -⟩ := append_inj hdata hlen
        exact ⟨seed, hseed, henc⟩
      · rw [hinvalid em out hem hout hsome] at hdec
        cases hdec
    · rintro ⟨seed, hseed, henc⟩
      exact hvalid m seed em out hseed hem hout henc
    · intro m seed out hm hseed hout
      have hm : m.length ≤ n := by omega
      have hz : n - m.length + m.length = n := Nat.sub_add_cancel hm
      have hem := length_oaepBlock h g (n - m.length) m hseed
      rw [hz] at hem
      have henc : OaepEncodes h (some g) label m seed (oaepBlock h g label seed (n - m.length) m) :=
        (oaepEncodes_iff hg hhash hint hseed hem).mpr ⟨n - m.length, hz, rfl⟩
      exact ⟨_, hem, henc, hvalid m seed _ out hseed hem hout henc⟩

/-- A modulus of 128 bytes with SHA-1. -/
theorem oaep_exact_rsa1024 :
    2 * getShaSize .sha1 + 2 ≤ 128 ∧ OaepExact (fun m _ => .replicate (getShaSize m) 0) (some .sha1)
        (Vector.replicate (getShaSize .sha1) 0).toList 128 128 :=
  ⟨by decide, (oaep_exact_iff (fun m _ => .replicate (getShaSize m) 0)
    (Vector.replicate (getShaSize .sha1) 0) (some .sha1) (by decide) (le_refl 128)
    (by decide)).mpr ⟨⟨nofun, nofun⟩, by decide, by decide⟩⟩

/-- The encoding of the message `07` in a block of 43 bytes is refused with a buffer of `2 ^ 32`
bytes: the comparison of the lengths takes the buffer for empty. -/
theorem oaep_large_buffer_refused :
    OaepEncodes (fun m _ => .replicate (getShaSize m) 0) (some .sha1) (List.replicate 20 0) [7]
        (List.replicate 20 0) (List.replicate 41 0 ++ [1, 7]) ∧
      decodeEmeOaep (shaToken fun m _ => .replicate (getShaSize m) 0) (fun _ => true)
          (List.replicate 41 0 ++ [1, 7]) (List.replicate (2 ^ 32) 0) (2 ^ 32) (some .sha1)
          (List.replicate 20 0)
        = .ok ⟨.encryptedDataInvalid, List.replicate (2 ^ 32) 0, 0⟩ := by
  have hblock : oaepBlock (fun m _ => .replicate (getShaSize m) 0) .sha1 (replicate 20 0)
      (replicate 20 0) 0 [7] = replicate 41 0 ++ [1, 7] := by decide
  have henc : OaepEncodes (fun m _ => .replicate (getShaSize m) 0) (some .sha1)
      (replicate 20 0) [7] (replicate 20 0) (replicate 41 0 ++ [1, 7]) :=
    (oaepEncodes_iff (n := 1) (by decide) (by decide) (by decide) rfl rfl).mpr ⟨0, rfl, hblock⟩
  have hout : 1 ≤ (replicate (2 ^ 32) (0 : UInt8)).length := by
    rw [length_replicate]
    decide
  have hdec := decodeEmeOaep_encodes (L := 2 ^ 32) (by decide) (by decide) (by decide)
    (by decide) rfl
    rfl hout henc
  rw [if_neg (by decide)] at hdec
  exact ⟨henc, hdec⟩

end OpenCryptoki.Proofs.Common
