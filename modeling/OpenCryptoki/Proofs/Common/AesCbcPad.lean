import OpenCryptoki.Common.AesCbcPad
import OpenCryptoki.Lib.Cbc

/-!
# `OpenCryptoki.Proofs.Common.AesCbcPad`: padded CBC decryption of untrusted data

`PadSpec` says what a caller may expect of a decryption. `cbc_pad_decrypt_right_iff` says for which
ciphertexts and buffers the functions meet it, in one call and in parts. They do not for others:

* `strip_pkcs_padding` accepts every last byte that is not larger than the data, 0 and values above
  16 included, and does not compare the bytes before it.
* Both callers ignore its error. `aes_cbc_pad_decrypt` then copies as many bytes as the caller has
  declared, from a buffer that may be shorter.
* Nobody compares the length of the message with the length of the caller's buffer.

`PadInv` is the invariant of a decryption in parts, and `padInv_step` says that every part keeps it:
what has been returned is the decryption of whole blocks, and the rest of the input, up to one
block, is kept.
-/

set_option autoImplicit false

namespace OpenCryptoki.Proofs.Common

open Lib OpenCryptoki.Common List

/-- Blocks are not empty. -/
theorem aesBlock_pos : 0 < AES_BLOCK_SIZE := by decide

/-- A token with CBC over a block permutation for each key. -/
def cbcToken {K : Type} (find : Nat → KeyObject K) (perm : K → BlockPerm UInt8 AES_BLOCK_SIZE) :
    CbcToken K where
  findInMap key := .ok (find key)
  tAesCbc := some fun key encrypt iv bytes =>
    .ok (if encrypt then cbcEncrypt (perm key) iv bytes else cbcDecrypt (perm key) iv bytes)

/-! ### Padding -/

/-- `xs` is `m` with a valid PKCS#7 padding. -/
def Padded (xs m : List UInt8) : Prop :=
  ∃ n, 1 ≤ n ∧ n ≤ AES_BLOCK_SIZE ∧ xs = m ++ List.replicate n (UInt8.ofNat n)

/-- The message with its padding. -/
def pkcsPad (m : List UInt8) : List UInt8 :=
  m ++ List.replicate (AES_BLOCK_SIZE - m.length % AES_BLOCK_SIZE)
    (UInt8.ofNat (AES_BLOCK_SIZE - m.length % AES_BLOCK_SIZE))

/-- Padded data has whole blocks. -/
theorem dvd_length_pkcsPad (m : List UInt8) : AES_BLOCK_SIZE ∣ (pkcsPad m).length := by
  rw [pkcsPad, length_append, length_replicate, Nat.dvd_iff_mod_eq_zero]
  simp only [AES_BLOCK_SIZE]
  omega

/-- Of whole blocks the padding is determined. -/
theorem padded_iff {xs m : List UInt8} (hxs : AES_BLOCK_SIZE ∣ xs.length) :
    Padded xs m ↔ xs = pkcsPad m := by
  constructor
  · rintro ⟨n, hpos, hle, rfl⟩
    rw [length_append, length_replicate, Nat.dvd_iff_mod_eq_zero] at hxs
    have hn : n = AES_BLOCK_SIZE - m.length % AES_BLOCK_SIZE := by
      simp only [AES_BLOCK_SIZE] at *
      omega
    rw [pkcsPad, ← hn]
  · rintro rfl
    refine ⟨AES_BLOCK_SIZE - m.length % AES_BLOCK_SIZE, ?_, Nat.sub_le _ _, rfl⟩
    have := Nat.mod_lt m.length aesBlock_pos
    omega

/-- What `strip_pkcs_padding` does to a padded message. -/
theorem stripPkcsPadding_padded {xs m : List UInt8} (h : Padded xs m) (hlt : xs.length < 2 ^ 64)
    (dataLen : Nat) : stripPkcsPadding xs xs.length dataLen = .ok (.ok, m.length) := by
  obtain ⟨n, hpos, hle, rfl⟩ := h
  have hlen : (m ++ replicate n (UInt8.ofNat n)).length = m.length + n := by
    rw [length_append, length_replicate]
  have hbyte : (UInt8.ofNat n).toNat = n := by
    rw [UInt8.toNat_ofNat', Nat.mod_eq_of_lt]
    simp only [AES_BLOCK_SIZE] at hle
    omega
  have hlast : (m ++ replicate n (UInt8.ofNat n))[ulongSub (m.length + n) 1]?
      = some (UInt8.ofNat n) := by
    have hoff : ulongSub (m.length + n) 1 = m.length + (n - 1) := by
      simp only [ulongSub]
      omega
    rw [hoff, getElem?_append_right (by omega), Nat.add_sub_cancel_left,
      getElem?_replicate, if_pos (by omega)]
  rw [hlen, stripPkcsPadding, hlast]
  simp only [access_some, ok_bind, hbyte]
  rw [if_neg (by omega), Nat.add_sub_cancel]

/-! ### The end of a decryption -/

/-- What both functions do with the decrypted data: the padding is taken off, and the rest goes to
`out_data`. -/
def stripAndCopy (clear outData : List UInt8) (dataLen : Nat) :
    Except Stop (List UInt8 × Nat) := do
  let (_, n) ← stripPkcsPadding clear clear.length dataLen
  let bytes ← access (readAt clear 0 n)
  let outData ← access (writeAt outData 0 bytes)
  .ok (outData, n)

section
variable {clear outData : List UInt8} {dataLen : Nat}

/-- Padding that is right is taken off, and the message is copied. -/
theorem stripAndCopy_padded {m : List UInt8} (h : Padded clear m) (hlt : clear.length < 2 ^ 64)
    (hfits : m.length ≤ outData.length) :
    stripAndCopy clear outData dataLen = .ok (m ++ outData.drop m.length, m.length) := by
  have hread : readAt clear 0 m.length = some m := by
    obtain ⟨n, -, -, rfl⟩ := h
    exact readAt_of_eq [] m _ rfl rfl rfl
  have hwrite : writeAt outData 0 m = some (m ++ outData.drop m.length) :=
    writeAt_of_eq [] (outData.take m.length) (outData.drop m.length)
      (take_append_drop _ _).symm rfl (length_take_of_le hfits).symm
  rw [stripAndCopy, stripPkcsPadding_padded h hlt]
  simp only [ok_bind, hread, hwrite, access_some]

/-- The error of `strip_pkcs_padding` is ignored. -/
theorem noRc_stripAndCopy : NoRc (stripAndCopy clear outData dataLen) := by
  have hstrip : NoRc (stripPkcsPadding clear clear.length dataLen) := by
    refine (NoRc.access _).bind fun padValue => ?_
    split <;> exact NoRc.ok _
  exact hstrip.bind fun _ => (NoRc.access _).bind fun _ => (NoRc.access _).bind fun _ => NoRc.ok _

end

/-- What a caller may expect of a decryption, when `IsMessage m` says that the decrypted data ends
with a valid padding and is `m` without it: it stays inside the buffers, it succeeds only with `m`,
and it says when `m` does not fit. -/
structure PadSpec (IsMessage : List UInt8 → Prop) (outData : List UInt8)
    (r : Except Stop (List UInt8 × Nat)) : Prop where
  no_fault : r ≠ .error .fault
  ok_only : ∀ outData' n, r = .ok (outData', n) →
    ∃ m, IsMessage m ∧ outData' = m ++ outData.drop m.length ∧ n = m.length
  too_small : ∀ m, IsMessage m → outData.length < m.length → r = .error (.rc .bufferTooSmall)

variable {IsMessage : List UInt8 → Prop}

/-- An error return is always right if there is no message. -/
theorem padSpec_error (outData : List UInt8) (rc : CkRv) (h : ∀ m, ¬ IsMessage m) :
    PadSpec IsMessage outData (.error (.rc rc)) :=
  ⟨nofun, nofun, fun m hm => absurd hm (h m)⟩

/-- The end of a decryption is right if and only if there is a message that fits. -/
theorem padSpec_stripAndCopy_iff {clear outData : List UInt8} {dataLen : Nat}
    (hlt : clear.length < 2 ^ 64) (hmessage : ∀ m, IsMessage m ↔ Padded clear m) :
    PadSpec IsMessage outData (stripAndCopy clear outData dataLen) ↔
      ∃ m, IsMessage m ∧ m.length ≤ outData.length := by
  constructor
  · intro hspec
    -- It does not fail, so it has to succeed.
    obtain ⟨⟨outData', n⟩, hok⟩ := noRc_stripAndCopy.exists_eq_ok hspec.no_fault
    obtain ⟨m, hm, hout, -⟩ := hspec.ok_only outData' n hok
    refine ⟨m, hm, ?_⟩
    have hlen : outData'.length = outData.length := by
      simp only [stripAndCopy, bind_eq_ok] at hok
      obtain ⟨_, -, _, -, _, hwrite, hok⟩ := hok
      cases hok
      exact length_of_writeAt (access_eq_ok.mp hwrite)
    rw [hout, length_append, length_drop] at hlen
    omega
  · rintro ⟨m, hm, hfits⟩
    rw [stripAndCopy_padded ((hmessage m).mp hm) hlt hfits]
    refine ⟨nofun, ?_, ?_⟩
    · intro outData' n hok
      cases hok
      exact ⟨m, hm, rfl, rfl⟩
    · -- There is no second message.
      intro m' hm' hlong
      have hstrip := stripPkcsPadding_padded ((hmessage m).mp hm) hlt 0
      rw [stripPkcsPadding_padded ((hmessage m').mp hm') hlt 0] at hstrip
      have hlen : m'.length = m.length := congrArg Prod.snd (Except.ok.inj hstrip)
      omega

section
variable {K : Type} (find : Nat → KeyObject K) (perm : K → BlockPerm UInt8 AES_BLOCK_SIZE)

/-- `ckm_aes_cbc_decrypt` writes the decrypted data to the start of the buffer. -/
theorem ckmAesCbcDecrypt_eq {inData outData iv : List UInt8} (key : KeyObject K)
    (hiv : iv.length = AES_BLOCK_SIZE) (hdvd : AES_BLOCK_SIZE ∣ inData.length)
    (hfits : inData.length ≤ outData.length) :
    ckmAesCbcDecrypt (cbcToken find perm) inData outData outData.length iv key
      = .ok (cbcDecrypt (perm key.value) iv inData ++ outData.drop inData.length,
          inData.length) := by
  have hlen := length_cbcDecrypt (p := perm key.value) aesBlock_pos hiv hdvd
  have hwrite : writeAt outData 0 (cbcDecrypt (perm key.value) iv inData)
      = some (cbcDecrypt (perm key.value) iv inData ++ outData.drop inData.length) :=
    writeAt_of_eq [] (outData.take inData.length) (outData.drop inData.length)
      (take_append_drop _ _).symm rfl (by rw [hlen, length_take_of_le hfits])
  rw [ckmAesCbcDecrypt, check_bind (by omega)]
  show (access (writeAt outData 0 (cbcDecrypt (perm key.value) iv inData)) >>= fun outData =>
    .ok (outData, (cbcDecrypt (perm key.value) iv inData).length)) = _
  rw [hwrite, access_bind, hlen]

/-- The decrypted data, in a buffer of its own. -/
theorem ckmAesCbcDecrypt_clear {inData iv : List UInt8} (key : KeyObject K)
    (hiv : iv.length = AES_BLOCK_SIZE) (hdvd : AES_BLOCK_SIZE ∣ inData.length) :
    ckmAesCbcDecrypt (cbcToken find perm) inData (replicate inData.length 0) inData.length iv
        key
      = .ok (cbcDecrypt (perm key.value) iv inData,
          (cbcDecrypt (perm key.value) iv inData).length) := by
  have hlen : (replicate inData.length (0 : UInt8)).length = inData.length :=
    length_replicate
  have heq := ckmAesCbcDecrypt_eq find perm key hiv hdvd hlen.ge
  rw [hlen, drop_of_length_le hlen.le, append_nil] at heq
  rw [heq, length_cbcDecrypt aesBlock_pos hiv hdvd]

/-- `m` is what the data decrypts to, without a valid padding. -/
def DecryptsTo (p : BlockPerm UInt8 AES_BLOCK_SIZE) (iv data m : List UInt8) : Prop :=
  AES_BLOCK_SIZE ∣ data.length ∧ Padded (cbcDecrypt p iv data) m

/-- That is, the data is the encryption of the message with its padding. -/
theorem decryptsTo_iff {p : BlockPerm UInt8 AES_BLOCK_SIZE} {iv data m : List UInt8}
    (hiv : iv.length = AES_BLOCK_SIZE) :
    DecryptsTo p iv data m ↔ data = cbcEncrypt p iv (pkcsPad m) := by
  constructor
  · rintro ⟨hdvd, hpad⟩
    rw [padded_iff (by rwa [length_cbcDecrypt aesBlock_pos hiv hdvd])] at hpad
    rw [← hpad, cbcEncrypt_cbcDecrypt aesBlock_pos hiv hdvd]
  · rintro rfl
    have hlen := length_cbcEncrypt (p := p) aesBlock_pos hiv (dvd_length_pkcsPad m)
    refine ⟨by rw [hlen]; exact dvd_length_pkcsPad m, ?_⟩
    rw [cbcDecrypt_cbcEncrypt aesBlock_pos hiv (dvd_length_pkcsPad m)]
    exact (padded_iff (dvd_length_pkcsPad m)).mpr rfl

/-! ### In one call -/

variable {ctx : CbcPadCtx} {inData outData : List UInt8}

/-- The token finds every key. -/
theorem findInMap_cbcToken (key : Nat) :
    orReturn ((cbcToken find perm).findInMap key) = .ok (find key) := rfl

/-- Decryption in one call is right if and only if the length is refused, or the data is the
encryption of a message that fits the buffer. -/
theorem padSpec_aesCbcPadDecrypt_iff (hiv : ctx.param.length = AES_BLOCK_SIZE)
    (hlt : inData.length < 2 ^ 64) :
    PadSpec (DecryptsTo (perm (find ctx.key).value) ctx.param inData) outData
        (aesCbcPadDecrypt (cbcToken find perm) true false ctx inData outData outData.length) ↔
      ¬ AES_BLOCK_SIZE ∣ inData.length ∨
        ∃ m, inData = cbcEncrypt (perm (find ctx.key).value) ctx.param (pkcsPad m) ∧
          m.length ≤ outData.length := by
  by_cases hdvd : AES_BLOCK_SIZE ∣ inData.length
  · have hlen := length_cbcDecrypt (p := perm (find ctx.key).value) aesBlock_pos hiv hdvd
    have hmessage : ∀ m, DecryptsTo (perm (find ctx.key).value) ctx.param inData m ↔
        Padded (cbcDecrypt (perm (find ctx.key).value) ctx.param inData) m :=
      fun m => and_iff_right hdvd
    have heq : aesCbcPadDecrypt (cbcToken find perm) true false ctx inData outData outData.length
        = stripAndCopy (cbcDecrypt (perm (find ctx.key).value) ctx.param inData) outData
            outData.length := by
      rw [aesCbcPadDecrypt, findInMap_cbcToken, ok_bind, check_bind (Nat.mod_eq_zero_of_dvd hdvd)]
      show (ckmAesCbcDecrypt _ inData (replicate inData.length 0) inData.length ctx.param
        (find ctx.key) >>= _) = _
      rw [ckmAesCbcDecrypt_clear find perm (find ctx.key) hiv hdvd, ok_bind]
      rfl
    rw [heq, padSpec_stripAndCopy_iff (by rwa [hlen]) hmessage,
      or_iff_right (not_not.mpr hdvd)]
    exact exists_congr fun m => and_congr_left fun _ => decryptsTo_iff hiv
  · refine iff_of_true ?_ (.inl hdvd)
    have herr : aesCbcPadDecrypt (cbcToken find perm) true false ctx inData outData outData.length
        = .error (.rc .encryptedDataLenRange) := by
      rw [aesCbcPadDecrypt, findInMap_cbcToken, ok_bind,
        check_bind_not fun hmod => hdvd (Nat.dvd_of_mod_eq_zero hmod)]
    rw [herr]
    exact padSpec_error outData _ fun m hm => hdvd hm.1

/-! ### In parts -/

/-- Of more than a block, all but the last 1 to 16 bytes are whole blocks. The data kept from
before is in the first one. -/
theorem exists_blocks {kept inData : List UInt8} (hkept : kept.length ≤ AES_BLOCK_SIZE)
    (hlong : AES_BLOCK_SIZE < kept.length + inData.length) :
    ∃ u rest, inData = u ++ rest ∧ AES_BLOCK_SIZE ∣ (kept ++ u).length ∧
      AES_BLOCK_SIZE ≤ (kept ++ u).length ∧ 1 ≤ rest.length ∧ rest.length ≤ AES_BLOCK_SIZE := by
  -- The number of bytes that go into the blocks.
  let k := (kept.length + inData.length - 1) / AES_BLOCK_SIZE * AES_BLOCK_SIZE - kept.length
  have hlen : kept.length + k
      = (kept.length + inData.length - 1) / AES_BLOCK_SIZE * AES_BLOCK_SIZE := by
    simp only [k, AES_BLOCK_SIZE] at *
    omega
  have hblocks : (kept ++ inData.take k).length
      = (kept.length + inData.length - 1) / AES_BLOCK_SIZE * AES_BLOCK_SIZE := by
    rw [length_append, length_take, ← hlen]
    simp only [AES_BLOCK_SIZE] at *
    omega
  refine ⟨inData.take k, inData.drop k, (take_append_drop _ _).symm, ?_, ?_, ?_, ?_⟩
  · rw [hblocks]
    exact Nat.dvd_mul_left _ _
  all_goals
    simp only [hblocks, length_drop, AES_BLOCK_SIZE] at *
    omega

/-- The check that the lengths do not wrap around. -/
theorem total_le_ulongMax {context : AesContext} {n : Nat}
    (h : ¬ n > ULONG_MAX - context.data.length) : context.data.length + n ≤ ULONG_MAX := by
  have hle := context.len_le
  simp only [AES_BLOCK_SIZE, ULONG_MAX] at *
  omega

/-- The number of bytes that an update keeps back. -/
theorem remain_eq {k r : Nat} (hdvd : AES_BLOCK_SIZE ∣ k) (hpos : 1 ≤ r)
    (hle : r ≤ AES_BLOCK_SIZE) :
    (if (k + r) % AES_BLOCK_SIZE = 0 then AES_BLOCK_SIZE else (k + r) % AES_BLOCK_SIZE) = r := by
  rw [Nat.dvd_iff_mod_eq_zero] at hdvd
  split <;> simp only [AES_BLOCK_SIZE] at * <;> omega

/-- The copies of an update with more than a block of data: `kept` is what the context has, `u`
fills it up to whole blocks, and `rest` stays behind. -/
structure Gathers (kept u rest : List UInt8) : Prop where
  size : ¬ (u ++ rest).length > ULONG_MAX - kept.length
  total : kept.length + (u ++ rest).length = (kept ++ u).length + rest.length
  long : ¬ (kept ++ u).length + rest.length ≤ AES_BLOCK_SIZE
  new : ulongSub (kept ++ u).length kept.length = u.length
  readNew : readAt (u ++ rest) 0 u.length = some u
  writeKept : writeAt (List.replicate (kept ++ u).length 0) 0 kept
    = some (kept ++ List.replicate u.length 0)
  writeNew : writeAt (kept ++ List.replicate u.length 0) kept.length u = some (kept ++ u)
  readRest : readAt (u ++ rest) (ulongSub (u ++ rest).length rest.length) rest.length = some rest

/-- The part completes a block and leaves a byte to keep. -/
theorem gathers {kept u rest : List UInt8} (hpos : AES_BLOCK_SIZE ≤ (kept ++ u).length)
    (hrest : 1 ≤ rest.length) (hlt : kept.length + (u ++ rest).length ≤ ULONG_MAX) :
    Gathers kept u rest := by
  have hblocks : (kept ++ u).length = kept.length + u.length := length_append
  have hin : (u ++ rest).length = u.length + rest.length := length_append
  refine ⟨by omega, by omega, by omega, ?_, readAt_of_eq [] u rest rfl rfl rfl, ?_, ?_, ?_⟩
  · simp only [ulongSub, ULONG_MAX] at *
    omega
  · exact writeAt_of_eq [] (replicate kept.length 0) (replicate u.length 0)
      (by rw [hblocks, replicate_add]; rfl) rfl length_replicate.symm
  · have hwrite := writeAt_of_eq kept (replicate u.length 0) []
      (by rw [append_nil]) rfl (length_replicate (a := (0 : UInt8)).symm)
    rwa [append_nil] at hwrite
  · refine readAt_of_eq u rest [] (by rw [append_nil]) ?_ rfl
    rw [hin, ulongSub]
    simp only [ULONG_MAX] at hlt
    omega

/-- The last block in front of `tail`. -/
theorem readAt_last_block {ys b : List UInt8} (tail : List UInt8) (hb : b.length = AES_BLOCK_SIZE)
    (hlt : (ys ++ b).length ≤ ULONG_MAX) :
    readAt (ys ++ b ++ tail) (ulongSub (ys ++ b).length AES_BLOCK_SIZE) AES_BLOCK_SIZE
      = some b := by
  refine readAt_of_eq ys b tail (append_assoc ys b tail) ?_ hb.symm
  rw [length_append] at hlt ⊢
  simp only [ulongSub, ULONG_MAX, AES_BLOCK_SIZE] at *
  omega

section
variable {u rest : List UInt8} (hiv : ctx.param.length = AES_BLOCK_SIZE)
    (hdvd : AES_BLOCK_SIZE ∣ (ctx.context.data ++ u).length)
    (hpos : AES_BLOCK_SIZE ≤ (ctx.context.data ++ u).length) (hrest : 1 ≤ rest.length)
    (hle : rest.length ≤ AES_BLOCK_SIZE)
    (hlt : ctx.context.data.length + (u ++ rest).length ≤ ULONG_MAX)
include hiv hdvd hpos hrest hlt

/-- An update with more than a block of data decrypts the whole blocks and keeps the rest. -/
theorem aesCbcPadDecryptUpdate_blocks (outData : List UInt8) :
    aesCbcPadDecryptUpdate (cbcToken find perm) true false ctx (u ++ rest) outData outData.length
      = ckmAesCbcDecrypt (cbcToken find perm) (ctx.context.data ++ u) outData outData.length
            ctx.param (find ctx.key) >>= fun r =>
          .ok ({ ctx with
              param := cbcChain (perm (find ctx.key).value) ctx.param (ctx.context.data ++ u),
              context := ⟨rest, hle⟩ }, r) := by
  obtain ⟨ys, b, hcat, hys, hb⟩ : ∃ ys b, ctx.context.data ++ u = ys ++ b ∧
      AES_BLOCK_SIZE ∣ ys.length ∧ b.length = AES_BLOCK_SIZE := by
    refine ⟨(ctx.context.data ++ u).take ((ctx.context.data ++ u).length - AES_BLOCK_SIZE),
      (ctx.context.data ++ u).drop ((ctx.context.data ++ u).length - AES_BLOCK_SIZE),
      (take_append_drop _ _).symm, ?_, ?_⟩
    · rw [length_take_of_le (Nat.sub_le _ _)]
      exact Nat.dvd_sub hdvd dvd_rfl
    · rw [length_drop]
      omega
  obtain ⟨hsize, htotal, hlong, hnew, hreadNew, hwriteKept, hwriteNew, hreadRest⟩ :=
    gathers hpos hrest hlt
  have hremain := remain_eq hdvd hrest hle
  have hreadLast : readAt (ctx.context.data ++ u)
      (ulongSub (ctx.context.data ++ u).length AES_BLOCK_SIZE) AES_BLOCK_SIZE = some b := by
    have hfits : (ys ++ b).length ≤ ULONG_MAX := by rw [← hcat]; omega
    have hread := readAt_last_block [] hb hfits
    rwa [append_nil, ← hcat] at hread
  have hwriteParam : writeAt ctx.param 0 b = some b := by
    have hwrite := writeAt_of_eq [] ctx.param [] (append_nil _).symm rfl (hb.trans hiv.symm)
    rwa [append_nil] at hwrite
  have hcontext : AesContext.ofData rest = .ok ⟨rest, hle⟩ := dif_pos hle
  unfold aesCbcPadDecryptUpdate
  simp only [check_of hsize, htotal, hlong, hremain, Nat.add_sub_cancel, hnew, hreadNew,
    findInMap_cbcToken, hwriteKept, hwriteNew, hreadLast, hwriteParam, hreadRest, hcontext,
    access_some, ok_bind, check_true, if_false, Bool.false_eq_true]
  rw [hcat, cbcChain_concat aesBlock_pos hys hb]

end

variable {alloc : Bool} {outDataLen : Nat}

/-- A part whose length wraps around is refused. -/
theorem aesCbcPadDecryptUpdate_huge {lengthOnly : Bool}
    (hhuge : inData.length > ULONG_MAX - ctx.context.data.length) :
    aesCbcPadDecryptUpdate (cbcToken find perm) alloc lengthOnly ctx inData outData outDataLen
      = .error (.rc .dataLenRange) := by
  rw [aesCbcPadDecryptUpdate, check_bind_not (not_not.mpr hhuge)]

/-- Up to a block is kept. -/
theorem aesCbcPadDecryptUpdate_short
    (hshort : ctx.context.data.length + inData.length ≤ AES_BLOCK_SIZE) :
    aesCbcPadDecryptUpdate (cbcToken find perm) alloc false ctx inData outData outDataLen
      = .ok ({ ctx with context := ⟨ctx.context.data ++ inData, by rwa [length_append]⟩ },
          outData, 0) := by
  have hsize : ¬ inData.length > ULONG_MAX - ctx.context.data.length := by
    simp only [AES_BLOCK_SIZE, ULONG_MAX] at *
    omega
  have hcontext : AesContext.ofData (ctx.context.data ++ inData)
      = .ok ⟨ctx.context.data ++ inData, by rwa [length_append]⟩ := dif_pos _
  simp only [aesCbcPadDecryptUpdate, check_of hsize, ok_bind, hshort, if_true, true_and]
  split
  · rw [hcontext, ok_bind]
  · next hempty =>
    -- There is no input, so the context is what it was.
    have hnil : inData = [] := eq_nil_of_length_eq_zero (by omega)
    subst hnil
    simp only [append_nil]

/-- A query of the length changes nothing. -/
theorem aesCbcPadDecryptUpdate_query (alloc : Bool) (outData : List UInt8) (outDataLen : Nat)
    (hsize : ¬ inData.length > ULONG_MAX - ctx.context.data.length) :
    ∃ n, aesCbcPadDecryptUpdate (cbcToken find perm) alloc true ctx inData outData outDataLen
      = .ok (ctx, outData, n) := by
  simp only [aesCbcPadDecryptUpdate, check_of hsize, ok_bind]
  split
  · exact ⟨_, rfl⟩
  · exact ⟨_, rfl⟩

/-- A buffer that is shorter than the answer to the query is too small. -/
theorem aesCbcPadDecryptUpdate_too_small {ctx' : CbcPadCtx} {outData' : List UInt8} {n : Nat}
    (hiv : ctx.param.length = AES_BLOCK_SIZE)
    (hquery : aesCbcPadDecryptUpdate (cbcToken find perm) true true ctx inData outData
      outData.length = .ok (ctx', outData', n)) (hsmall : outData.length < n) :
    aesCbcPadDecryptUpdate (cbcToken find perm) true false ctx inData outData outData.length
      = .error (.rc .bufferTooSmall) := by
  by_cases hsize : inData.length > ULONG_MAX - ctx.context.data.length
  · rw [aesCbcPadDecryptUpdate_huge find perm hsize] at hquery
    cases hquery
  simp only [aesCbcPadDecryptUpdate, check_of hsize, ok_bind] at hquery
  split at hquery
  · cases hquery
    omega
  · next hlong =>
    obtain ⟨u, rest, rfl, hdvd, hpos, hrest, hle⟩ :=
      exists_blocks ctx.context.len_le (not_le.mp hlong)
    have hlt := total_le_ulongMax hsize
    have htotal : ctx.context.data.length + (u ++ rest).length
        = (ctx.context.data ++ u).length + rest.length := by
      rw [length_append, length_append, add_assoc]
    rw [htotal, remain_eq hdvd hrest hle, Nat.add_sub_cancel] at hquery
    cases hquery
    rw [aesCbcPadDecryptUpdate_blocks find perm hiv hdvd hpos hrest hle hlt, ckmAesCbcDecrypt,
      check_of_not (not_not.mpr hsmall)]
    rfl

/-! ### Runs -/

/-- A run has decrypted the blocks `done` with the key `key` and the initial vector `iv`, and keeps
the rest of its input. -/
structure PadInv (p : BlockPerm UInt8 AES_BLOCK_SIZE) (iv : List UInt8) (key : Nat)
    (done : List UInt8) (s : PadRun) : Prop where
  blocks : AES_BLOCK_SIZE ∣ done.length
  input : s.input = done ++ s.ctx.context.data
  output : s.output = cbcDecrypt p iv done
  param : s.ctx.param = cbcChain p iv done
  key : s.ctx.key = key
  kept : s.ctx.context.data = [] → done = []

section
variable {iv done : List UInt8} {key : Nat} {s : PadRun}

/-- A call keeps the invariant. -/
theorem padInv_step (hiv : iv.length = AES_BLOCK_SIZE)
    (h : PadInv (perm (find key).value) iv key done s) (c : UpdateCall) :
    Safe (s.step (cbcToken find perm) c)
      fun s' => ∃ done', PadInv (perm (find key).value) iv key done' s' := by
  have hparam : s.ctx.param.length = AES_BLOCK_SIZE := by
    rw [h.param, length_cbcChain aesBlock_pos hiv h.blocks]
  obtain ⟨lengthOnly, inData, outData⟩ := c
  by_cases hsize : inData.length > ULONG_MAX - s.ctx.context.data.length
  · simp only [PadRun.step, aesCbcPadDecryptUpdate_huge find perm hsize]
    exact Safe.rc _
  cases lengthOnly with
  | true =>
    obtain ⟨n, hquery⟩ :=
      aesCbcPadDecryptUpdate_query find perm true outData outData.length hsize
    simp only [PadRun.step, hquery]
    exact ⟨done, h⟩
  | false =>
    -- A call that leaves at most one block only collects, since that block may be the padding.
    by_cases hshort : s.ctx.context.data.length + inData.length ≤ AES_BLOCK_SIZE
    · simp only [PadRun.step, aesCbcPadDecryptUpdate_short find perm hshort]
      refine ⟨done, h.blocks, ?_, ?_, h.param, h.key, ?_⟩
      · show s.input ++ inData = done ++ (s.ctx.context.data ++ inData)
        rw [h.input, append_assoc]
      · rw [h.output, take_zero, append_nil]
      · intro hnil
        exact h.kept (append_eq_nil_iff.mp hnil).1
    -- Otherwise all but the last block, which may be a short one, is decrypted.
    · obtain ⟨u, rest, rfl, hdvd, hpos, hrest, hle⟩ :=
        exists_blocks s.ctx.context.len_le (not_le.mp hshort)
      have heq := aesCbcPadDecryptUpdate_blocks find perm hparam hdvd hpos hrest hle
        (total_le_ulongMax hsize) outData
      by_cases hfits : (s.ctx.context.data ++ u).length ≤ outData.length
      · rw [ckmAesCbcDecrypt_eq find perm _ hparam hdvd hfits, ok_bind] at heq
        have hlen := length_cbcDecrypt (p := perm (find s.ctx.key).value) aesBlock_pos hparam hdvd
        simp only [PadRun.step, heq]
        refine ⟨done ++ (s.ctx.context.data ++ u), ?_, ?_, ?_, ?_, h.key, ?_⟩
        · rw [length_append]
          exact Nat.dvd_add h.blocks hdvd
        · show s.input ++ (u ++ rest) = done ++ (s.ctx.context.data ++ u) ++ rest
          simp only [h.input, append_assoc]
        · show s.output ++ _ = _
          rw [take_left' hlen, h.output, h.param, h.key,
            cbcDecrypt_append aesBlock_pos h.blocks hdvd]
        · show cbcChain _ s.ctx.param _ = _
          rw [h.param, h.key, cbcChain_append aesBlock_pos h.blocks hdvd]
        · intro hnil
          rw [show rest = [] from hnil] at hrest
          contradiction
      -- The output buffer is too short, and the context is left as it was.
      · rw [ckmAesCbcDecrypt, check_bind_not (by omega), error_bind] at heq
        simp only [PadRun.step, heq]
        exact ⟨done, h⟩

/-- The final call decrypts the kept block and strips it. -/
theorem aesCbcPadDecryptFinal_eq (hiv : ctx.param.length = AES_BLOCK_SIZE)
    (hfull : ctx.context.data.length = AES_BLOCK_SIZE) :
    aesCbcPadDecryptFinal (cbcToken find perm) false ctx outData
      = stripAndCopy (cbcDecrypt (perm (find ctx.key).value) ctx.param ctx.context.data) outData
          AES_BLOCK_SIZE := by
  have hdvd : AES_BLOCK_SIZE ∣ ctx.context.data.length := hfull ▸ dvd_refl _
  have hclear := ckmAesCbcDecrypt_clear find perm (find ctx.key) hiv hdvd
  rw [length_cbcDecrypt aesBlock_pos hiv hdvd, hfull] at hclear
  rw [aesCbcPadDecryptFinal, findInMap_cbcToken, ok_bind, check_bind hfull]
  show (ckmAesCbcDecrypt _ ctx.context.data (replicate AES_BLOCK_SIZE 0) AES_BLOCK_SIZE
    ctx.param (find ctx.key) >>= _) = _
  rw [hclear, ok_bind, stripAndCopy, length_cbcDecrypt aesBlock_pos hiv hdvd, hfull]

/-- What the end of a run is left with. -/
theorem decryptsTo_run_iff (h : PadInv (perm (find key).value) iv key done s)
    (hfull : s.ctx.context.data.length = AES_BLOCK_SIZE) (m : List UInt8) :
    DecryptsTo (perm (find key).value) iv s.input (s.output ++ m) ↔
      Padded (cbcDecrypt (perm (find key).value) s.ctx.param s.ctx.context.data) m := by
  have hdvd : AES_BLOCK_SIZE ∣ s.ctx.context.data.length := hfull ▸ Nat.dvd_refl _
  have hinput : AES_BLOCK_SIZE ∣ s.input.length := by
    rw [h.input, length_append]
    exact Nat.dvd_add h.blocks hdvd
  rw [DecryptsTo, and_iff_right hinput, h.input, cbcDecrypt_append aesBlock_pos h.blocks hdvd,
    h.output, h.param, Padded, Padded]
  simp only [append_assoc, append_cancel_left_eq]

section
variable (hiv : iv.length = AES_BLOCK_SIZE) (h : PadInv (perm (find key).value) iv key done s)
include hiv h

/-- The padding of a message is in the last block, so the message starts with what has been
returned when that block is still kept. -/
theorem PadInv.exists_append (hfull : s.ctx.context.data.length = AES_BLOCK_SIZE) {m : List UInt8}
    (hm : s.input = cbcEncrypt (perm (find key).value) iv (pkcsPad m)) :
    ∃ m', s.output ++ m' = m := by
  have hdvd : AES_BLOCK_SIZE ∣ s.ctx.context.data.length := hfull ▸ Nat.dvd_refl _
  have hinput : s.input.length = done.length + AES_BLOCK_SIZE := by
    rw [h.input, length_append, hfull]
  have houtput : s.output.length = done.length := by
    rw [h.output, length_cbcDecrypt aesBlock_pos hiv h.blocks]
  obtain ⟨-, n, -, hn, hcat⟩ := (decryptsTo_iff hiv).mpr hm
  have hlen := congrArg length hcat
  rw [length_cbcDecrypt aesBlock_pos hiv
    (by rw [hinput]; exact Nat.dvd_add h.blocks dvd_rfl), length_append,
    length_replicate, hinput] at hlen
  rw [h.input, cbcDecrypt_append aesBlock_pos h.blocks hdvd, ← h.output] at hcat
  have htake := congrArg (take s.output.length) hcat
  rw [take_left, take_append_of_le_length (by omega)] at htake
  refine ⟨m.drop s.output.length, ?_⟩
  conv_rhs => rw [← take_append_drop s.output.length m, ← htake]

/-- The end of a run is right if and only if there is no block to decrypt, or the input is the
encryption of a message whose rest fits the buffer. -/
theorem padSpec_aesCbcPadDecryptFinal_iff (outData : List UInt8) :
    PadSpec (fun m => DecryptsTo (perm (find key).value) iv s.input (s.output ++ m)) outData
        (aesCbcPadDecryptFinal (cbcToken find perm) false s.ctx outData) ↔
      ¬ AES_BLOCK_SIZE ∣ s.input.length ∨ s.input = [] ∨
        ∃ m, s.input = cbcEncrypt (perm (find key).value) iv (pkcsPad m) ∧
          m.length + AES_BLOCK_SIZE ≤ s.input.length + outData.length := by
  obtain rfl := h.key
  have hparam : s.ctx.param.length = AES_BLOCK_SIZE := by
    rw [h.param, length_cbcChain aesBlock_pos hiv h.blocks]
  have houtput : s.output.length = done.length := by
    rw [h.output, length_cbcDecrypt aesBlock_pos hiv h.blocks]
  have hinput : s.input.length = done.length + s.ctx.context.data.length := by
    rw [h.input, length_append]
  by_cases hfull : s.ctx.context.data.length = AES_BLOCK_SIZE
  · have hdvd : AES_BLOCK_SIZE ∣ s.input.length := by
      rw [hinput, hfull]
      exact Nat.dvd_add h.blocks dvd_rfl
    have hne : s.input ≠ [] := by
      intro hnil
      rw [hnil, length_nil, hfull] at hinput
      have := aesBlock_pos
      omega
    have hclear : (cbcDecrypt (perm (find s.ctx.key).value) s.ctx.param s.ctx.context.data).length
        < 2 ^ 64 := by
      rw [length_cbcDecrypt aesBlock_pos hparam (hfull ▸ Nat.dvd_refl _), hfull]
      decide
    rw [aesCbcPadDecryptFinal_eq find perm hparam hfull,
      padSpec_stripAndCopy_iff hclear (decryptsTo_run_iff find perm h hfull),
      or_iff_right (not_not.mpr hdvd), or_iff_right hne]
    constructor
    · rintro ⟨m, hm, hfits⟩
      refine ⟨s.output ++ m, (decryptsTo_iff hiv).mp hm, ?_⟩
      rw [length_append]
      omega
    · -- The padding is in the last block, so the message starts with what has been returned.
      rintro ⟨m, hm, hfits⟩
      obtain ⟨m', rfl⟩ := h.exists_append find perm hiv hfull hm
      rw [length_append] at hfits
      exact ⟨m', (decryptsTo_iff hiv).mpr hm, by omega⟩
  · -- What is kept is no block, so the length is refused or there was no input.
    have hcases : AES_BLOCK_SIZE ∣ s.input.length → s.input = [] := by
      intro hdvd
      rw [hinput, Nat.dvd_add_right h.blocks] at hdvd
      have hnil : s.ctx.context.data = [] := by
        have hle := s.ctx.context.len_le
        exact eq_nil_of_length_eq_zero (Nat.eq_zero_of_dvd_of_lt hdvd (by omega))
      rw [h.input, hnil, h.kept hnil]
      rfl
    have herr : aesCbcPadDecryptFinal (cbcToken find perm) false s.ctx outData
        = .error (.rc .encryptedDataLenRange) := by
      rw [aesCbcPadDecryptFinal, findInMap_cbcToken, ok_bind, check_bind_not hfull]
    rw [herr]
    refine iff_of_true (padSpec_error outData _ ?_) ?_
    · rintro m ⟨hdvd, hpad⟩
      rw [hcases hdvd, cbcDecrypt_nil] at hpad
      obtain ⟨n, hpos, -, hcat⟩ := hpad
      have hlen := congrArg length hcat
      simp only [length_append, length_replicate, length_nil] at hlen
      omega
    · rw [← or_assoc]
      exact .inl (or_iff_not_imp_left.mpr fun hdvd => hcases (not_not.mp hdvd))

end

end

end

/-! ### All decryptions -/

/-- When decryption with padding is right. In one call, it is if and only if the length of the data
is refused or the data is the encryption of a padded message that fits the buffer. The updates of a
decryption in parts never leave their buffers and say when one is too small; what comes at the end
is right if and only if there is no last block, or the input is the encryption of a padded message
whose rest fits the buffer. -/
theorem cbc_pad_decrypt_right_iff {K : Type} (find : Nat → KeyObject K)
    (perm : K → BlockPerm UInt8 AES_BLOCK_SIZE) (key : Nat) {iv : List UInt8}
    (hiv : iv.length = AES_BLOCK_SIZE) :
    (∀ inData outData : List UInt8, inData.length < 2 ^ 64 →
      (PadSpec (DecryptsTo (perm (find key).value) iv inData) outData
          (aesCbcPadDecrypt (cbcToken find perm) true false (PadRun.init key iv).ctx inData outData
            outData.length) ↔
        ¬ AES_BLOCK_SIZE ∣ inData.length ∨
          ∃ m, inData = cbcEncrypt (perm (find key).value) iv (pkcsPad m) ∧
            m.length ≤ outData.length)) ∧
    ∀ cs : List UpdateCall, (PadRun.init key iv).steps (cbcToken find perm) cs ≠ .error .fault ∧
      ∀ s, (PadRun.init key iv).steps (cbcToken find perm) cs = .ok s →
        (∀ (inData outData : List UInt8) (ctx : CbcPadCtx) (outData' : List UInt8) (n : Nat),
          aesCbcPadDecryptUpdate (cbcToken find perm) true true s.ctx inData outData outData.length
            = .ok (ctx, outData', n) → outData.length < n →
          aesCbcPadDecryptUpdate (cbcToken find perm) true false s.ctx inData outData outData.length
            = .error (.rc .bufferTooSmall)) ∧
        ∀ outData : List UInt8,
          PadSpec (fun m => DecryptsTo (perm (find key).value) iv s.input (s.output ++ m)) outData
              (aesCbcPadDecryptFinal (cbcToken find perm) false s.ctx outData) ↔
            ¬ AES_BLOCK_SIZE ∣ s.input.length ∨ s.input = [] ∨
              ∃ m, s.input = cbcEncrypt (perm (find key).value) iv (pkcsPad m) ∧
                m.length + AES_BLOCK_SIZE ≤ s.input.length + outData.length := by
  constructor
  · intro inData outData hlt
    have hinit : (PadRun.init key iv).ctx.param.length = AES_BLOCK_SIZE := hiv
    exact padSpec_aesCbcPadDecrypt_iff find perm hinit hlt
  · intro cs
    -- Every run stays inside its buffers and has returned decrypted data.
    have hsafe : Safe ((PadRun.init key iv).steps (cbcToken find perm) cs) fun s =>
        ∃ done, PadInv (perm (find key).value) iv key done s := by
      have hinit : PadInv (perm (find key).value) iv key [] (PadRun.init key iv) :=
        ⟨Nat.dvd_zero _, rfl, cbcDecrypt_nil.symm, cbcChain_nil.symm, rfl, fun _ => rfl⟩
      refine Safe.foldlM (fun s c hs => ?_) cs ⟨[], hinit⟩
      obtain ⟨done, h⟩ := hs
      exact padInv_step find perm hiv h c
    refine ⟨hsafe.ne_fault, fun s hs => ?_⟩
    rw [hs] at hsafe
    obtain ⟨done, hinv⟩ := hsafe
    constructor
    · intro inData outData ctx outData' n hquery hsmall
      have hparam : s.ctx.param.length = AES_BLOCK_SIZE := by
        rw [hinv.param, length_cbcChain aesBlock_pos hiv hinv.blocks]
      exact aesCbcPadDecryptUpdate_too_small find perm hparam hquery hsmall
    · exact padSpec_aesCbcPadDecryptFinal_iff find perm hiv hinv

/-! ### Concrete decryptions -/

/-- A cipher that changes nothing. -/
def nullCipher : BlockPerm UInt8 AES_BLOCK_SIZE where
  enc b := b
  dec b := b
  length_enc _ h := h
  length_dec _ h := h
  dec_enc _ _ := rfl
  enc_dec _ _ := rfl

def nullKey : KeyObject Unit where
  cls := none
  keyType := none
  sign := none
  signRecover := none
  verify := none
  verifyRecover := none
  isPrivate := none
  alwaysAuthenticate := none
  modulus := none
  allowedMechanisms := []
  value := ()

/-- A token with that cipher and one key. -/
def nullToken : CbcToken Unit := cbcToken (fun _ => nullKey) fun _ => nullCipher

/-- The initial vector of zeros. -/
def zeroIv : List UInt8 := List.replicate AES_BLOCK_SIZE 0

/-- A message of 20 bytes. -/
def twentyBytes : List UInt8 := List.replicate 16 0x61 ++ [1, 2, 3, 4]

/-- Its encryption, two blocks. -/
def twentyEncrypted : List UInt8 := cbcEncrypt nullCipher zeroIv (pkcsPad twentyBytes)

/-- The message is decrypted in one call with a buffer of 20 bytes, and in parts of 30 and 2
bytes. -/
theorem cbc_pad_decrypt_right_twenty :
    PadSpec (DecryptsTo nullCipher zeroIv twentyEncrypted) (List.replicate 20 0)
        (aesCbcPadDecrypt nullToken true false (PadRun.init 0 zeroIv).ctx twentyEncrypted
          (List.replicate 20 0) 20) ∧
      ∃ s, (PadRun.init 0 zeroIv).steps nullToken
          [⟨false, twentyEncrypted.take 30, List.replicate 16 0⟩,
           ⟨false, twentyEncrypted.drop 30, List.replicate 16 0⟩] = .ok s ∧
        s.input = twentyEncrypted ∧
        PadSpec (fun m => DecryptsTo nullCipher zeroIv twentyEncrypted (s.output ++ m))
          (List.replicate 16 0)
          (aesCbcPadDecryptFinal nullToken false s.ctx (List.replicate 16 0)) := by
  have hiv : zeroIv.length = AES_BLOCK_SIZE := rfl
  have hright := cbc_pad_decrypt_right_iff (fun _ => nullKey) (fun _ => nullCipher) 0 hiv
  obtain ⟨s, hs, hinput⟩ : ∃ s, (PadRun.init 0 zeroIv).steps nullToken
      [⟨false, twentyEncrypted.take 30, List.replicate 16 0⟩,
       ⟨false, twentyEncrypted.drop 30, List.replicate 16 0⟩] = .ok s ∧
      s.input = twentyEncrypted := ⟨_, rfl, rfl⟩
  have hfinal := ((hright.2 _).2 s hs).2 (List.replicate 16 0)
  rw [hinput] at hfinal
  refine ⟨?_, s, hs, hinput, hfinal.mpr (.inr (.inr ⟨twentyBytes, rfl, by decide⟩))⟩
  exact (hright.1 twentyEncrypted (List.replicate 20 0) (by decide)).mpr
    (.inr ⟨twentyBytes, rfl, by decide⟩)

/-- With the cipher that changes nothing and the initial vector zero, the data is its own
decryption. A last byte of 255 in one block with a buffer of 32 bytes makes the function read 32 of
the 16 decrypted bytes. A last byte of 0 is reported as success, and so is 255 at the end of a
decryption in parts. A message of 16 bytes is written to a buffer of none. -/
theorem cbc_pad_decrypt_overread :
    aesCbcPadDecrypt nullToken true false (PadRun.init 0 zeroIv).ctx
        (List.replicate 16 255) (List.replicate 32 7) 32 = .error .fault ∧
      (aesCbcPadDecrypt nullToken true false (PadRun.init 0 zeroIv).ctx
          (List.replicate 16 0) (List.replicate 16 7) 16 = .ok (List.replicate 16 0, 16) ∧
        ∀ m, ¬ DecryptsTo nullCipher zeroIv (List.replicate 16 0) m) ∧
      ((PadRun.init 0 zeroIv).steps nullToken [⟨false, List.replicate 16 255, []⟩] >>= fun s =>
          aesCbcPadDecryptFinal nullToken false s.ctx (List.replicate 16 7))
        = .ok (List.replicate 16 255, 16) ∧
      aesCbcPadDecrypt nullToken true false (PadRun.init 0 zeroIv).ctx
        (List.replicate 16 1 ++ List.replicate 16 17) [] 0 = .error .fault := by
  refine ⟨rfl, ⟨rfl, ?_⟩, rfl, rfl⟩
  rintro m ⟨-, hpad⟩
  -- By its last byte the message would be as long as the data.
  have hclear : cbcDecrypt nullCipher zeroIv (replicate 16 0) = replicate 16 0 := rfl
  rw [hclear] at hpad
  have hstrip := stripPkcsPadding_padded hpad (by decide) 0
  have hlen : 16 = m.length := congrArg Prod.snd (Except.ok.inj hstrip)
  obtain ⟨n, hpos, -, hcat⟩ := hpad
  have hcat := congrArg length hcat
  rw [length_append, length_replicate, length_replicate] at hcat
  omega

end OpenCryptoki.Proofs.Common
