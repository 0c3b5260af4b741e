import OpenCryptoki.Proofs.Common.AesXts

/-!
# `OpenCryptoki.Proofs.Common.AesXtsParts`: AES-XTS in parts against AES-XTS in one call

`aes_xts_crypt_update` keeps back between one and two blocks. When a part arrives and only
kept bytes can go out, it takes a path of its own, the short path. There it tests the return
value the wrong way round: after a successful call it leaves, with the bytes still in the
context and the part dropped. `update_of_shortPath` states this.

`Holds op encrypt ctx P Q` describes a context: the bytes `P` have gone through the cipher, and
`Q` is kept. A part that does not take the short path keeps this true
(`update_of_not_shortPath`), and so do all parts of an operation that avoids it
(`updates_of_avoidsShortPath`). Then the operation conforms to the single call
(`conforms_of_avoidsShortPath`).

The other direction takes a cipher that changes nothing. A message of zeros is marked with
one byte 1 in the part that is lost. Then only zeros come out, whatever comes later
(`zeroCtx_updates`, `zeroCtx_final`), and the single call does put out the byte 1.

`aes_xts_crypt_final` returns `CKR_OK` also when its step has failed, for example because the
buffer is too small (`final_of_lt`). `xts_parts_conform_iff` puts the two conditions together.
-/

set_option autoImplicit false

namespace OpenCryptoki.Proofs.Common

open Lib OpenCryptoki.Common

/-- An operation with `CKM_AES_XTS`: a token whose `t_aes_xts` is `aes_xts_cipher` over a cipher
on blocks for each key and direction, the key that the operation has been given, and its
tweak. -/
structure XtsOperation (K : Type) where
  findInMap : Nat → Except Failure (KeyObject K)
  ivFromTweak : K → AesBlock → AesBlock
  cipher : K → Bool → BlockCipher UInt8 AesBlock AES_BLOCK_SIZE
  key : Nat
  obj : KeyObject K
  found : findInMap key = .ok obj
  tweak : AesBlock

/-- A call of `C_EncryptUpdate` or `C_DecryptUpdate`: the part, the memory at `out_data`, and by
how much the declared size exceeds what is needed. -/
structure UpdateCall where
  part : List UInt8
  out : Buf
  slack : Nat

/-- The message that the calls bring. -/
def message (us : List UpdateCall) : List UInt8 := us.flatMap (·.part)

/-- A call has written the bytes that it reports, and no others. -/
def WritesReported (before : Buf) (r : PartResult XtsCtx) : Prop :=
  ∃ bytes, bytes.length = r.outDataLen ∧ r.out = some (before.write 0 bytes)

namespace XtsOperation

variable {K : Type} (op : XtsOperation K)

def tok : XtsToken K where
  findInMap := op.findInMap
  tAesXts := some fun k encrypt => .ofCipher (op.ivFromTweak k) (op.cipher k encrypt)

/-- The context after `encr_mgr_init` or `decr_mgr_init`. -/
def ctx : XtsCtx := ⟨op.key, op.tweak, .zero⟩

/-- A call with a size that is large enough: what the call for the length only reports, or
more. -/
def update (encrypt : Bool) (ctx : XtsCtx) (u : UpdateCall) : PartResult XtsCtx :=
  aesXtsCryptUpdate op.tok false encrypt ctx u.part (some u.out)
    ((aesXtsCryptUpdate op.tok true encrypt ctx u.part none 0).outDataLen + u.slack)

/-- The results of update calls, and the context after them. -/
def updates (encrypt : Bool) : XtsCtx → List UpdateCall → List (PartResult XtsCtx) × XtsCtx
  | ctx, []      => ([], ctx)
  | ctx, u :: us =>
    let r := op.update encrypt ctx u
    let rs := updates encrypt r.ctx us
    (r :: rs.1, rs.2)

/-- The final call after update calls. -/
def final (encrypt : Bool) (us : List UpdateCall) (out : Buf) (outDataLen : Nat) :
    PartResult XtsCtx :=
  aesXtsCryptFinal op.tok false encrypt (op.updates encrypt op.ctx us).2 (some out) outDataLen

/-- The step inside the final call. -/
def finalStep (encrypt : Bool) (us : List UpdateCall) (out : Buf) (outDataLen : Nat) :
    CryptResult :=
  aesXtsFinalStep op.tok encrypt (op.updates encrypt op.ctx us).2 op.obj (some out) outDataLen

/-- The call of `C_Encrypt` or `C_Decrypt` on the whole message. -/
def single (encrypt : Bool) (inData : List UInt8) (out : Buf) (outDataLen : Nat) :
    PartResult XtsCtx :=
  aesXtsCrypt op.tok false encrypt op.ctx inData (some out) outDataLen

/-- What the update calls and the final call report, one after the other. -/
def output (encrypt : Bool) (us : List UpdateCall) (out : Buf) (outDataLen : Nat) : List UInt8 :=
  ((op.updates encrypt op.ctx us).1.flatMap fun r => reported r.out r.outDataLen)
    ++ reported (op.final encrypt us out outDataLen).out
        (op.final encrypt us out outDataLen).outDataLen

/-- The operation in parts does what one call on the whole message does, and tells its caller
the truth. -/
structure Conforms (encrypt : Bool) (us : List UpdateCall) (out : Buf) (outDataLen : Nat) :
    Prop where
  updates_ok : List.Forall₂ (fun u r => r.rc = .ok ∧ WritesReported u.out r) us
    (op.updates encrypt op.ctx us).1
  final_error : (op.finalStep encrypt us out outDataLen).rc ≠ .ok →
    (op.final encrypt us out outDataLen).rc ≠ .ok
  final_written : (op.final encrypt us out outDataLen).rc = .ok →
    WritesReported out (op.final encrypt us out outDataLen)
  single_eq : (op.final encrypt us out outDataLen).rc = .ok → ∀ buf n,
    (message us).length ≤ n → (op.single encrypt (message us) buf n).rc = .ok ∧
      op.output encrypt us out outDataLen = reported (op.single encrypt (message us) buf n).out
            (op.single encrypt (message us) buf n).outDataLen

end XtsOperation

/-! ### How much is kept -/

/-- The number of bytes that are kept back of `n` bytes. -/
def keptLen (n : Nat) : Nat :=
  if n < 2 * AES_BLOCK_SIZE then n else AES_BLOCK_SIZE + n % AES_BLOCK_SIZE

/-- After `n` bytes, a part of `p` bytes for which only kept bytes go out. -/
def ShortPath (n p : Nat) : Prop :=
  AES_BLOCK_SIZE < keptLen n ∧ 2 * AES_BLOCK_SIZE ≤ keptLen n + p ∧
    keptLen n + p < 3 * AES_BLOCK_SIZE

/-- `ShortPath` can be decided. -/
instance (n p : Nat) : Decidable (ShortPath n p) := inferInstanceAs (Decidable (_ ∧ _ ∧ _))

/-- No part of the given lengths takes the short path, after `n` bytes. -/
def AvoidsShortPath : Nat → List Nat → Prop
  | _, []      => True
  | n, p :: ps => ¬ ShortPath n p ∧ AvoidsShortPath (n + p) ps

/-- Up to two blocks all is kept, and from then on a block and the rest. -/
theorem keptLen_cases (n : Nat) :
    (n < 32 ∧ keptLen n = n) ∨ (32 ≤ n ∧ keptLen n = 16 + n % 16) := by
  by_cases h : n < 32
  · exact .inl ⟨h, if_pos h⟩
  · exact .inr ⟨by omega, if_neg h⟩

/-- No more is kept than there is. -/
theorem keptLen_le (n : Nat) : keptLen n ≤ n := by
  have := keptLen_cases n
  omega

/-- What goes out has whole blocks. -/
theorem dvd_sub_keptLen (n : Nat) : AES_BLOCK_SIZE ∣ n - keptLen n := by
  have := keptLen_cases n
  simp only [AES_BLOCK_SIZE]
  omega

variable {n p : Nat} {xs : List UInt8} {lens : List Nat}

/-- A part that does not complete two blocks is kept. -/
theorem keptLen_add_of_lt (h : keptLen n + p < 2 * AES_BLOCK_SIZE) :
    keptLen (n + p) = keptLen n + p := by
  have hn := keptLen_cases n
  have hnp := keptLen_cases (n + p)
  simp only [AES_BLOCK_SIZE] at h
  omega

/-- A part that completes two blocks leaves one block and the rest. -/
theorem keptLen_add_of_le (h : 2 * AES_BLOCK_SIZE ≤ keptLen n + p) :
    keptLen (n + p) = AES_BLOCK_SIZE + (keptLen n + p) % AES_BLOCK_SIZE := by
  have hn := keptLen_cases n
  have hnp := keptLen_cases (n + p)
  simp only [AES_BLOCK_SIZE] at *
  omega

/-! ### The context after update calls -/

section
open List

variable {K : Type} (op : XtsOperation K) (encrypt : Bool)

/-- The cipher of the operation. -/
def XtsOperation.block : BlockCipher UInt8 AesBlock AES_BLOCK_SIZE :=
  op.cipher op.obj.value encrypt

/-- The `iv` of the first block. -/
def XtsOperation.firstIv : AesBlock := op.ivFromTweak op.obj.value op.tweak

/-- The bytes `P` have gone through the cipher, and the bytes `Q` after them are kept. -/
structure Holds (ctx : XtsCtx) (P Q : List UInt8) : Prop where
  key : ctx.key = op.key
  param : ctx.param = op.tweak
  kept : Q.length = keptLen (P.length + Q.length)
  len : ctx.context.len = Q.length
  data : ctx.context.data.read 0 Q.length = Q
  iv : (if !ctx.context.initialized then op.firstIv else ctx.context.iv)
    = ((op.block encrypt).run op.firstIv P).2

variable {inData P Q : List UInt8} {outDataLen : Nat}

/-- A call of the token that is not the last one. -/
theorem ckmAesXtsCrypt_not_final (buf : Buf) (initial : Bool) (iv : AesBlock)
    (hdvd : AES_BLOCK_SIZE ∣ inData.length) (hroom : inData.length ≤ outDataLen) :
    ckmAesXtsCrypt op.tok inData (some buf) outDataLen op.tweak op.obj initial false iv encrypt
      = ⟨.ok, some (buf.write 0
          ((op.block encrypt).run (if initial then op.firstIv else iv) inData).1), inData.length,
          ((op.block encrypt).run (if initial then op.firstIv else iv) inData).2⟩ := by
  have hlt : ¬ outDataLen < inData.length := hroom.not_gt
  have hcall := aesXtsCipher_not_final (op.ivFromTweak op.obj.value) (op.block encrypt) buf iv
    op.tweak encrypt initial hdvd hroom
  rw [ckmAesXtsCrypt]
  simp only [hlt, if_false]
  exact hcall

/-- The last call of the token. -/
theorem ckmAesXtsCrypt_final (buf : Buf) (initial : Bool) (iv : AesBlock)
    (hle : AES_BLOCK_SIZE ≤ inData.length) (hroom : inData.length ≤ outDataLen) :
    ∃ iv', ckmAesXtsCrypt op.tok inData (some buf) outDataLen op.tweak op.obj initial true iv
        encrypt
      = ⟨.ok, some (buf.write 0 (xtsMessage (op.block encrypt) encrypt
          (if initial then op.firstIv else iv) inData)), inData.length, iv'⟩ := by
  have hlt : ¬ outDataLen < inData.length := hroom.not_gt
  obtain ⟨iv', hcall⟩ := aesXtsCipher_final (op.ivFromTweak op.obj.value) (op.block encrypt) buf
    iv op.tweak encrypt initial hle hroom
  refine ⟨iv', ?_⟩
  rw [ckmAesXtsCrypt]
  simp only [hlt, if_false]
  exact hcall

/-- The length of a part does not wrap around. -/
theorem part_fits (ctx : XtsCtx) {n : Nat} (hfits : n < 2 ^ 63) :
    ¬ n > ULONG_MAX - ctx.context.len := by
  simp only [ULONG_MAX, AES_BLOCK_SIZE] at *
  omega

section
variable {ctx : XtsCtx} (u : UpdateCall)

/-- A part that does not complete two blocks is kept. -/
theorem update_of_lt (hfits : u.part.length < 2 ^ 63)
    (hlt : ctx.context.len + u.part.length < 2 * AES_BLOCK_SIZE) :
    op.update encrypt ctx u = ⟨.ok, { ctx with
          context := { ctx.context with
            data := ctx.context.data.write ctx.context.len u.part
            len := ⟨ctx.context.len + u.part.length, hlt⟩ } }, some u.out, 0⟩ := by
  have hover := part_fits ctx hfits
  rw [XtsOperation.update, aesXtsCryptUpdate, if_neg hover]
  by_cases hpart : 0 < u.part.length
  · simp [hlt, hpart]
  · have hnil : u.part = [] := by
      rwa [length_pos_iff, not_not] at hpart
    simp [hnil]

/-- The number of bytes that go out when two blocks are complete. -/
def outLenOf (ctx : XtsCtx) (u : UpdateCall) : Nat :=
  ctx.context.len + u.part.length
    - (AES_BLOCK_SIZE + (ctx.context.len + u.part.length) % AES_BLOCK_SIZE)

/-- The bytes that go out are whole blocks. -/
theorem dvd_outLenOf (ctx : XtsCtx) (u : UpdateCall) : AES_BLOCK_SIZE ∣ outLenOf ctx u := by
  simp only [outLenOf, AES_BLOCK_SIZE]
  omega

variable (hkey : ctx.key = op.key) (hparam : ctx.param = op.tweak) (hfits : u.part.length < 2 ^ 63)
  (hge : 2 * AES_BLOCK_SIZE ≤ ctx.context.len + u.part.length) {res : List UInt8 × AesBlock}

include hfits hge in
/-- A length query reports the bytes that would go out. -/
theorem outDataLen_eq_outLenOf :
    (aesXtsCryptUpdate op.tok true encrypt ctx u.part none 0).outDataLen = outLenOf ctx u := by
  simp [aesXtsCryptUpdate, part_fits ctx hfits, hge.not_gt, outLenOf]

variable {clear : List UInt8}

/-- The bytes that go out, which are whole blocks. -/
theorem ckmAesXtsCrypt_outLenOf (hlen : clear.length = outLenOf ctx u)
    (hres : res = (op.block encrypt).run
      (if !ctx.context.initialized then op.firstIv else ctx.context.iv) clear) :
    ckmAesXtsCrypt op.tok clear (some u.out) (outLenOf ctx u + u.slack) op.tweak op.obj
        (!ctx.context.initialized) false ctx.context.iv encrypt
      = ⟨.ok, some (u.out.write 0 res.1), outLenOf ctx u, res.2⟩ := by
  rw [ckmAesXtsCrypt_not_final op encrypt u.out _ _ (hlen ▸ dvd_outLenOf ctx u) (by omega), hres,
    hlen]

include hkey hparam hfits hge

/-- A part that completes two blocks, when all kept bytes go out. -/
theorem update_of_le (hlong : ctx.context.len ≤ outLenOf ctx u)
    (hclear : clear = ctx.context.data.read 0 ctx.context.len ++
      u.part.take (outLenOf ctx u - ctx.context.len))
    (hres : res = (op.block encrypt).run
      (if !ctx.context.initialized then op.firstIv else ctx.context.iv) clear) :
    op.update encrypt ctx u = ⟨.ok, { ctx with
          context :=
            { iv := res.2
              data := ctx.context.data.write 0 (u.part.drop (u.part.length
                - (AES_BLOCK_SIZE + (ctx.context.len + u.part.length) % AES_BLOCK_SIZE)))
              len := ⟨AES_BLOCK_SIZE + (ctx.context.len + u.part.length) % AES_BLOCK_SIZE,
                remain_lt _⟩
              initialized := true } }, some (u.out.write 0 res.1), outLenOf ctx u⟩ := by
  have hclearLen : clear.length = outLenOf ctx u := by
    have hle : outLenOf ctx u ≤ ctx.context.len + u.part.length := Nat.sub_le _ _
    rw [hclear, length_append, Buf.length_read, length_take]
    omega
  have hfound : op.tok.findInMap ctx.key = .ok op.obj := hkey ▸ op.found
  have hcall := ckmAesXtsCrypt_outLenOf op encrypt u hclearLen hres
  have hshort : ¬ outLenOf ctx u < ctx.context.len := hlong.not_gt
  rw [XtsOperation.update, outDataLen_eq_outLenOf op encrypt u hfits hge, aesXtsCryptUpdate,
    if_neg (part_fits ctx hfits)]
  unfold outLenOf at *
  simp [hge.not_gt, hfound, hshort, ← hclear, hparam, hcall]

/-- A part that completes two blocks, when not all kept bytes go out: they stay where they are,
and the part is lost. -/
theorem update_of_shortPath (hshort : outLenOf ctx u < ctx.context.len)
    (hres : res = (op.block encrypt).run
      (if !ctx.context.initialized then op.firstIv else ctx.context.iv)
      (ctx.context.data.read 0 (outLenOf ctx u))) :
    op.update encrypt ctx u = ⟨.ok, { ctx with context := { ctx.context with iv := res.2 } },
          some (u.out.write 0 res.1), outLenOf ctx u⟩ := by
  have hfound : op.tok.findInMap ctx.key = .ok op.obj := hkey ▸ op.found
  have hcall := ckmAesXtsCrypt_outLenOf op encrypt u (Buf.length_read _ _ _) hres
  rw [XtsOperation.update, outDataLen_eq_outLenOf op encrypt u hfits hge, aesXtsCryptUpdate,
    if_neg (part_fits ctx hfits)]
  unfold outLenOf at *
  simp [hge.not_gt, hfound, hshort, hparam, hcall]

end

section
variable {ctx : XtsCtx} (h : Holds op encrypt ctx P Q)
include h

/-- What has gone out has whole blocks. -/
theorem dvd_of_holds : AES_BLOCK_SIZE ∣ P.length := by
  have hdvd := dvd_sub_keptLen (P.length + Q.length)
  rwa [← h.kept, Nat.add_sub_cancel] at hdvd

/-- A part that does not take the short path: the bytes `X` go out, after those that have gone
out before. -/
theorem update_of_not_shortPath (u : UpdateCall)
    (hshort : ¬ ShortPath (P.length + Q.length) u.part.length) (hfits : u.part.length < 2 ^ 63) :
    ∃ X Q', Q ++ u.part = X ++ Q' ∧ AES_BLOCK_SIZE ∣ X.length ∧ (op.update encrypt ctx u).rc = .ok ∧
      (op.update encrypt ctx u).out = some (u.out.write 0
        ((op.block encrypt).run ((op.block encrypt).run op.firstIv P).2 X).1) ∧
      (op.update encrypt ctx u).outDataLen = X.length ∧
      Holds op encrypt (op.update encrypt ctx u).ctx (P ++ X) Q' := by
  have hP := dvd_of_holds op encrypt h
  have hsum : (ctx.context.len : Nat) + u.part.length
      = keptLen (P.length + Q.length) + u.part.length := by rw [h.len, ← h.kept]
  by_cases hlt : ctx.context.len + u.part.length < 2 * AES_BLOCK_SIZE
  · refine ⟨[], Q ++ u.part, rfl, ⟨0, rfl⟩, ?_⟩
    have hkept := keptLen_add_of_lt (hsum ▸ hlt)
    rw [update_of_lt op encrypt u hfits hlt, BlockCipher.run_nil, Buf.write_nil]
    refine ⟨rfl, rfl, rfl, h.key, h.param, ?_, ?_, ?_, ?_⟩
    · rw [append_nil, length_append, ← add_assoc, hkept, ← h.kept]
    · rw [length_append, ← h.len]
    · show (ctx.context.data.write ctx.context.len u.part).read 0 _ = _
      rw [length_append, h.len, Buf.read_write_append, h.data]
    · rw [append_nil]
      exact h.iv
  · have hge := not_lt.mp hlt
    have hkept := keptLen_add_of_le (hsum ▸ hge)
    have hQlt : Q.length < 2 * AES_BLOCK_SIZE := h.len ▸ ctx.context.len.2
    have hlong : ctx.context.len ≤ outLenOf ctx u := by
      simp only [ShortPath, outLenOf, AES_BLOCK_SIZE, h.len, ← h.kept] at *
      omega
    have houtLe : outLenOf ctx u ≤ (Q ++ u.part).length := by
      rw [length_append, ← h.len]
      exact Nat.sub_le _ _
    -- The kept bytes and the start of the part go out, and the end of the part is kept.
    have hclear : (Q ++ u.part).take (outLenOf ctx u) = ctx.context.data.read 0 ctx.context.len
          ++ u.part.take (outLenOf ctx u - ctx.context.len) := by
      rw [h.len, h.data, take_append, take_of_length_le (h.len ▸ hlong)]
    have hremain : (Q ++ u.part).length - outLenOf ctx u
        = AES_BLOCK_SIZE + (ctx.context.len + u.part.length) % AES_BLOCK_SIZE := by
      simp only [length_append, outLenOf, AES_BLOCK_SIZE, h.len] at *
      omega
    have hkeep : (Q ++ u.part).drop (outLenOf ctx u) = u.part.drop (u.part.length
          - (AES_BLOCK_SIZE + (ctx.context.len + u.part.length) % AES_BLOCK_SIZE)) := by
      rw [drop_append, drop_of_length_le (h.len ▸ hlong), nil_append, ← hremain]
      congr 1
      simp only [length_append] at *
      omega
    have hupdate := update_of_le op encrypt u h.key h.param hfits hge hlong hclear rfl
    rw [h.iv, ← hkeep] at hupdate
    have hX : ((Q ++ u.part).take (outLenOf ctx u)).length = outLenOf ctx u :=
      length_take_of_le houtLe
    have hXdvd : AES_BLOCK_SIZE ∣ ((Q ++ u.part).take (outLenOf ctx u)).length := by
      rw [hX]
      exact dvd_outLenOf ctx u
    have hall : outLenOf ctx u
          + (AES_BLOCK_SIZE + (ctx.context.len + u.part.length) % AES_BLOCK_SIZE)
        = Q.length + u.part.length := by
      rw [← hremain, Nat.add_sub_cancel' houtLe, length_append]
    refine ⟨(Q ++ u.part).take (outLenOf ctx u), (Q ++ u.part).drop (outLenOf ctx u),
      (take_append_drop _ _).symm, hXdvd, ?_⟩
    rw [hupdate]
    refine ⟨rfl, rfl, hX.symm, h.key, h.param, ?_, ?_, ?_, ?_⟩
    · rw [length_append, length_drop, hX, hremain, add_assoc, hall,
        ← add_assoc, hkept, hsum]
    · rw [length_drop, hremain]
    · exact Buf.read_write _ _ _
    · rw [BlockCipher.run_append _ aes_block_size_pos _ hP hXdvd]
      rfl

/-- Update calls that avoid the short path. -/
theorem updates_of_avoidsShortPath {us : List UpdateCall}
    (havoid : AvoidsShortPath (P.length + Q.length) (us.map (·.part.length)))
    (hfits : ∀ u ∈ us, u.part.length < 2 ^ 63) :
    ∃ X Q', Q ++ message us = X ++ Q' ∧ AES_BLOCK_SIZE ∣ X.length ∧
      Forall₂ (fun u r => r.rc = .ok ∧ WritesReported u.out r) us
        (op.updates encrypt ctx us).1 ∧
      ((op.updates encrypt ctx us).1.flatMap fun r => reported r.out r.outDataLen)
        = ((op.block encrypt).run ((op.block encrypt).run op.firstIv P).2 X).1 ∧
      Holds op encrypt (op.updates encrypt ctx us).2 (P ++ X) Q' := by
  induction us generalizing ctx P Q with
  | nil =>
    refine ⟨[], Q, by simp [message], ⟨0, rfl⟩, .nil, by simp [XtsOperation.updates], ?_⟩
    rw [append_nil]
    exact h
  | cons u us ih =>
    obtain ⟨hnot, havoid⟩ := havoid
    obtain ⟨X, Q', hcut, hX, hrc, hout, hlen, hholds⟩ :=
      update_of_not_shortPath op encrypt h u hnot (hfits u mem_cons_self)
    -- What the first call takes up and holds is where the induction starts again.
    have hnext : P.length + Q.length + u.part.length = (P ++ X).length + Q'.length := by
      have hlengths := congrArg length hcut
      simp only [length_append] at hlengths ⊢
      omega
    rw [hnext] at havoid
    obtain ⟨Y, R, hcut', hY, hok, hbytes, hrest⟩ :=
      ih hholds havoid fun v hv => hfits v (mem_cons_of_mem _ hv)
    have hP := dvd_of_holds op encrypt h
    have hrunLen := (op.block encrypt).length_run aes_block_size_pos
      ((op.block encrypt).run op.firstIv P).2 hX
    refine ⟨X ++ Y, R, ?_, length_append ▸ Nat.dvd_add hX hY, ?_, ?_, ?_⟩
    · show Q ++ (u.part ++ message us) = _
      rw [← append_assoc, hcut, append_assoc, hcut', append_assoc]
    · exact .cons ⟨hrc, _, by rw [hlen, hrunLen], hout⟩ hok
    · show reported _ _ ++ _ = _
      rw [hout, hlen, ← hrunLen, reported_write]
      show _ ++ ((op.updates encrypt (op.update encrypt ctx u).ctx us).1.flatMap _) = _
      rw [hbytes, BlockCipher.run_append _ aes_block_size_pos _ hP hX,
        BlockCipher.run_append _ aes_block_size_pos _ hX hY]
    · rw [← append_assoc]
      exact hrest

/-! ### The final call, and the call on the whole message -/

/-- The final call returns the rest of the message. -/
theorem final_of_le (hblock : AES_BLOCK_SIZE ≤ Q.length) (out : Buf)
    (hroom : Q.length ≤ outDataLen) :
    (aesXtsFinalStep op.tok encrypt ctx op.obj (some out) outDataLen).rc = .ok ∧
      aesXtsCryptFinal op.tok false encrypt ctx (some out) outDataLen
        = ⟨.ok, { ctx with context := .zero }, some (out.write 0 (xtsMessage (op.block encrypt)
            encrypt ((op.block encrypt).run op.firstIv P).2 Q)), Q.length⟩ := by
  obtain ⟨iv', hcall⟩ := ckmAesXtsCrypt_final op encrypt out (!ctx.context.initialized)
    ctx.context.iv hblock hroom
  have hfound : op.tok.findInMap ctx.key = .ok op.obj := h.key ▸ op.found
  rw [h.iv] at hcall
  have hstep : aesXtsFinalStep op.tok encrypt ctx op.obj (some out) outDataLen
      = ⟨.ok, some (out.write 0 (xtsMessage (op.block encrypt) encrypt
          ((op.block encrypt).run op.firstIv P).2 Q)), Q.length, iv'⟩ := by
    rw [aesXtsFinalStep, h.len, h.data, h.param, hcall]
  refine ⟨by rw [hstep], ?_⟩
  simp [aesXtsCryptFinal, hfound, hstep, h.len]

end

/-- A final step that lacks room fails, and the final call returns `CKR_OK`. -/
theorem final_of_lt {ctx : XtsCtx} (hkey : ctx.key = op.key) (out : Buf)
    (hroom : outDataLen < ctx.context.len) :
    (aesXtsFinalStep op.tok encrypt ctx op.obj (some out) outDataLen).rc = .bufferTooSmall ∧
      (aesXtsCryptFinal op.tok false encrypt ctx (some out) outDataLen).rc = .ok := by
  have hfound : op.tok.findInMap ctx.key = .ok op.obj := hkey ▸ op.found
  have hstep : (aesXtsFinalStep op.tok encrypt ctx op.obj (some out) outDataLen).rc
      = .bufferTooSmall := by
    simp [aesXtsFinalStep, ckmAesXtsCrypt, hroom]
  refine ⟨hstep, ?_⟩
  simp [aesXtsCryptFinal, hfound, hstep]

/-- The call on the whole message. -/
theorem single_eq (hblock : AES_BLOCK_SIZE ≤ inData.length) (buf : Buf) {n : Nat}
    (hroom : inData.length ≤ n) :
    (op.single encrypt inData buf n).rc = .ok ∧
      reported (op.single encrypt inData buf n).out (op.single encrypt inData buf n).outDataLen
        = xtsMessage (op.block encrypt) encrypt op.firstIv inData := by
  obtain ⟨iv', hcall⟩ := ckmAesXtsCrypt_final op encrypt buf true op.ctx.context.iv hblock hroom
  have hfound : op.tok.findInMap op.ctx.key = .ok op.obj := op.found
  have hparam : op.ctx.param = op.tweak := rfl
  have hreported := reported_write buf
    (xtsMessage (op.block encrypt) encrypt op.firstIv inData)
  rw [length_xtsMessage _ _ encrypt hblock] at hreported
  simp [XtsOperation.single, aesXtsCrypt, hblock.not_gt, hfound, hroom.not_gt,
    hparam, hcall, hreported]

/-- Nothing has gone out yet, and nothing is kept. -/
theorem holds_initially : Holds op encrypt op.ctx [] [] :=
  ⟨rfl, rfl, rfl, rfl, rfl, rfl⟩

/-- An operation that avoids the short path, with room for what is kept at the end. -/
theorem conforms_of_avoidsShortPath {us : List UpdateCall}
    (havoid : AvoidsShortPath 0 (us.map (·.part.length))) (hfits : ∀ u ∈ us, u.part.length < 2 ^ 63)
    (hblock : AES_BLOCK_SIZE ≤ (message us).length) (out : Buf)
    (hroom : keptLen (message us).length ≤ outDataLen) :
    op.Conforms encrypt us out outDataLen := by
  obtain ⟨X, Q, hcut, hX, hok, hbytes, hholds⟩ :=
    updates_of_avoidsShortPath op encrypt (holds_initially op encrypt) havoid hfits
  rw [nil_append] at hcut hholds
  have hkept : Q.length = keptLen (message us).length := by
    rw [hcut, length_append]
    exact hholds.kept
  have hQ : AES_BLOCK_SIZE ≤ Q.length := by
    rw [hkept]
    have hn := keptLen_cases ((message us).length)
    simp only [AES_BLOCK_SIZE] at *
    omega
  obtain ⟨hstep, hfinal⟩ := final_of_le op encrypt hholds hQ out (hkept ▸ hroom)
  have hmessage := length_xtsMessage (op.block encrypt) ((op.block encrypt).run op.firstIv X).2
    encrypt hQ
  refine ⟨hok, fun herror => absurd hstep herror, fun _ => ?_, fun _ buf n hn => ?_⟩
  · rw [XtsOperation.final, hfinal]
    exact ⟨_, hmessage, rfl⟩
  · obtain ⟨hrc, hsingle⟩ := single_eq op encrypt hblock buf hn
    refine ⟨hrc, ?_⟩
    rw [hsingle, XtsOperation.output, XtsOperation.final, hfinal, hbytes]
    show _ ++ reported (some _) Q.length = _
    rw [← hmessage, reported_write, hcut, xtsMessage,
      BlockCipher.steal_append aes_block_size_pos hX hQ]
    rfl

end

/-! ### What the short path loses -/

/-- The cipher that changes nothing. -/
def idCipher : BlockCipher UInt8 AesBlock AES_BLOCK_SIZE where
  crypt _ b := b
  next s := s
  length_crypt _ _ hb := hb

/-- An operation with that cipher. -/
def idOperation : XtsOperation Unit where
  findInMap _ := .ok ⟨none, none, none, none, none, none, none, none, none, [], ()⟩
  ivFromTweak _ tweak := tweak
  cipher _ _ := idCipher
  key := 0
  obj := ⟨none, none, none, none, none, none, none, none, none, [], ()⟩
  found := rfl
  tweak := Vector.replicate _ 0

/-- The identity changes nothing. -/
theorem idCipher_run (s : AesBlock) (xs : List UInt8) (hxs : AES_BLOCK_SIZE ∣ xs.length) :
    idCipher.run s xs = (xs, s) := by
  induction xs, hxs using blocks_induction with
  | nil => simp
  | block b xs hb hxs ih =>
    rw [BlockCipher.run_append _ aes_block_size_pos _ ⟨1, by rw [hb, mul_one]⟩ hxs,
      BlockCipher.run_block _ aes_block_size_pos _ hb]
    show (b ++ (idCipher.run s xs).1, (idCipher.run s xs).2) = _
    rw [ih]

/-- A message has the same bytes before and after, in another order. -/
theorem mem_idCipher_message (encrypt : Bool) (s : AesBlock) (hxs : AES_BLOCK_SIZE ≤ xs.length)
    (x : UInt8) :
    x ∈ xtsMessage idCipher encrypt s xs ↔ x ∈ xs := by
  obtain ⟨H, L, T, hH, hL, hT, rfl⟩ := exists_cut hxs
  have htail : (if encrypt then idCipher.encTail else idCipher.decTail) s L T
      = if T = [] then L else (T ++ L.drop T.length) ++ L.take T.length := by
    cases encrypt <;> rfl
  have hL' : x ∈ L ↔ x ∈ L.take T.length ∨ x ∈ L.drop T.length := by
    rw [← List.mem_append, List.take_append_drop]
  rw [xtsMessage, BlockCipher.steal_cut hH hL hT, idCipher_run s H hH, htail]
  split
  · next hnil => simp [hnil]
  · simp only [List.mem_append, hL']
    tauto

open List

/-- Bytes that are all zero. -/
def AllZero (xs : List UInt8) : Prop := ∀ x ∈ xs, x = 0

/-- Memory that is all zero. -/
def ZeroBuf (buf : Buf) : Prop := ∀ j, buf j = 0

variable {buf : Buf} {ys : List UInt8}

/-- Zeros written to a buffer of zeros. -/
theorem ZeroBuf.write (h : ZeroBuf buf) (off : Nat) {bytes : List UInt8} (hbytes : AllZero bytes) :
    ZeroBuf (buf.write off bytes) := by
  intro j
  rw [Buf.write]
  split
  · rw [getD_eq_getElem _ _ (by omega)]
    exact hbytes _ (getElem_mem _)
  · exact h j

/-- Zeros read from a buffer of zeros. -/
theorem ZeroBuf.read (h : ZeroBuf buf) (off n : Nat) : AllZero (buf.read off n) := by
  intro x hx
  obtain ⟨j, -, rfl⟩ := mem_map.mp hx
  exact h _

/-- Zeros in two parts. -/
theorem AllZero.append (hxs : AllZero xs) (hys : AllZero ys) : AllZero (xs ++ ys) :=
  fun x hx => (mem_append.mp hx).elim (hxs x) (hys x)

/-- Zeros among zeros. -/
theorem AllZero.subset (h : AllZero ys) (hsub : xs ⊆ ys) : AllZero xs :=
  fun x hx => h x (hsub hx)

/-- The context of `idOperation` holds zeros only. -/
structure ZeroCtx (ctx : XtsCtx) : Prop where
  key : ctx.key = idOperation.key
  param : ctx.param = idOperation.tweak
  data : ZeroBuf ctx.context.data

section
variable (encrypt : Bool) {ctx : XtsCtx}

/-- A part of zeros, or a part that is lost, brings zeros to the output and to the context. -/
theorem zeroCtx_update (h : ZeroCtx ctx) (u : UpdateCall) (hfits : u.part.length < 2 ^ 63)
    (hout : ZeroBuf u.out)
    (hpart : AllZero u.part ∨
      2 * AES_BLOCK_SIZE ≤ ctx.context.len + u.part.length ∧ outLenOf ctx u < ctx.context.len) :
    ZeroCtx (idOperation.update encrypt ctx u).ctx ∧
      AllZero (reported (idOperation.update encrypt ctx u).out
        (idOperation.update encrypt ctx u).outDataLen) := by
  by_cases hlt : ctx.context.len + u.part.length < 2 * AES_BLOCK_SIZE
  · have hzero : AllZero u.part := hpart.resolve_right fun hlost => by omega
    rw [update_of_lt idOperation encrypt u hfits hlt]
    exact ⟨⟨h.key, h.param, h.data.write _ hzero⟩, nofun⟩
  have hge := not_lt.mp hlt
  -- On the short path the part is not read, and the output comes from the held bytes only.
  by_cases hshort : outLenOf ctx u < ctx.context.len
  · have hdvd : AES_BLOCK_SIZE ∣ (ctx.context.data.read 0 (outLenOf ctx u)).length := by
      rw [Buf.length_read]
      exact dvd_outLenOf ctx u
    rw [update_of_shortPath idOperation encrypt u h.key h.param hfits hge hshort
      (idCipher_run _ _ hdvd).symm]
    exact ⟨⟨h.key, h.param, h.data⟩, (hout.write 0 (h.data.read 0 _)).read _ _⟩
  · have hzero : AllZero u.part := hpart.resolve_right fun hlost => hshort hlost.2
    have hlong := not_lt.mp hshort
    have hdvd : AES_BLOCK_SIZE ∣ (ctx.context.data.read 0 ctx.context.len
        ++ u.part.take (outLenOf ctx u - ctx.context.len)).length := by
      have hle : outLenOf ctx u ≤ ctx.context.len + u.part.length := Nat.sub_le _ _
      have hlen : (ctx.context.data.read 0 ctx.context.len
          ++ u.part.take (outLenOf ctx u - ctx.context.len)).length = outLenOf ctx u := by
        rw [length_append, Buf.length_read, length_take]
        omega
      rw [hlen]
      exact dvd_outLenOf ctx u
    have hclear := (h.data.read 0 ctx.context.len).append
      (hzero.subset (take_subset (outLenOf ctx u - ctx.context.len) _))
    rw [update_of_le idOperation encrypt u h.key h.param hfits hge hlong rfl
      (idCipher_run _ _ hdvd).symm]
    exact ⟨⟨h.key, h.param, h.data.write 0 (hzero.subset (drop_subset _ _))⟩,
      (hout.write 0 hclear).read _ _⟩

/-- From zeros, the calls with the parts make zeros only. -/
theorem zeroCtx_updates (h : ZeroCtx ctx) {us : List UpdateCall}
    (hus : ∀ u ∈ us, u.part.length < 2 ^ 63 ∧ ZeroBuf u.out ∧ AllZero u.part) :
    ZeroCtx (idOperation.updates encrypt ctx us).2 ∧
      AllZero ((idOperation.updates encrypt ctx us).1.flatMap fun r =>
        reported r.out r.outDataLen) := by
  induction us generalizing ctx with
  | nil => exact ⟨h, nofun⟩
  | cons u us ih =>
    obtain ⟨hfits, hout, hpart⟩ := hus u mem_cons_self
    obtain ⟨hctx, hzero⟩ := zeroCtx_update encrypt h u hfits hout (.inl hpart)
    obtain ⟨hlast, hrest⟩ := ih hctx fun v hv => hus v (mem_cons_of_mem _ hv)
    exact ⟨hlast, hzero.append hrest⟩

section
variable (h : ZeroCtx ctx) {out : Buf} (hout : ZeroBuf out) (outDataLen : Nat)
include h hout

/-- From zeros, the final call makes zeros only. -/
theorem zeroCtx_finalStep :
    ∃ buf, (aesXtsFinalStep idOperation.tok encrypt ctx idOperation.obj (some out)
      outDataLen).out = some buf ∧ ZeroBuf buf := by
  by_cases hroom : outDataLen < ctx.context.len
  · exact ⟨out, by simp [aesXtsFinalStep, ckmAesXtsCrypt, hroom], hout⟩
  by_cases hblock : (ctx.context.len : Nat) < AES_BLOCK_SIZE
  · refine ⟨out, ?_, hout⟩
    simp [aesXtsFinalStep, ckmAesXtsCrypt, hroom, XtsOperation.tok, aesXtsCipher, hblock]
  · have hread : (ctx.context.data.read 0 ctx.context.len).length = ctx.context.len :=
      Buf.length_read _ _ _
    have hlong : AES_BLOCK_SIZE ≤ (ctx.context.data.read 0 ctx.context.len).length := by omega
    have hfit : (ctx.context.data.read 0 ctx.context.len).length ≤ outDataLen := by omega
    obtain ⟨iv', hcall⟩ := ckmAesXtsCrypt_final idOperation encrypt out
      (!ctx.context.initialized) ctx.context.iv hlong hfit
    rw [aesXtsFinalStep, h.param, hcall]
    refine ⟨_, rfl, hout.write 0 fun x hx => ?_⟩
    exact h.data.read 0 _ x ((mem_idCipher_message encrypt _ hlong x).mp hx)

/-- The final call on a context of zeros returns `CKR_OK` and reports zeros. -/
theorem zeroCtx_final :
    (aesXtsCryptFinal idOperation.tok false encrypt ctx (some out) outDataLen).rc = .ok ∧
      AllZero (reported
        (aesXtsCryptFinal idOperation.tok false encrypt ctx (some out) outDataLen).out
        (aesXtsCryptFinal idOperation.tok false encrypt ctx (some out) outDataLen).outDataLen) := by
  obtain ⟨buf, hbuf, hzero⟩ := zeroCtx_finalStep encrypt h hout outDataLen
  have hfound : idOperation.tok.findInMap ctx.key = .ok idOperation.obj := h.key ▸ idOperation.found
  rw [aesXtsCryptFinal, hfound]
  simp only [Bool.false_eq_true, if_false]
  split
  all_goals exact ⟨rfl, by rw [hbuf]; exact hzero.read _ _⟩

end

end

/-- The calls with two rows of parts. -/
theorem updates_append (op : XtsOperation Unit) (encrypt : Bool) (ctx : XtsCtx)
    (us vs : List UpdateCall) :
    op.updates encrypt ctx (us ++ vs) = ((op.updates encrypt ctx us).1
          ++ (op.updates encrypt (op.updates encrypt ctx us).2 vs).1,
        (op.updates encrypt (op.updates encrypt ctx us).2 vs).2) := by
  induction us generalizing ctx with
  | nil => rfl
  | cons u us ih =>
    rw [cons_append, XtsOperation.updates, ih]
    rfl

/-- The first part that takes the short path. -/
theorem exists_shortPath (h : ¬ AvoidsShortPath n lens) :
    ∃ pre p post, lens = pre ++ p :: post ∧ AvoidsShortPath n pre ∧ ShortPath (n + pre.sum) p := by
  induction lens generalizing n with
  | nil => exact absurd trivial h
  | cons p lens ih =>
    by_cases hp : ShortPath n p
    · exact ⟨[], p, lens, rfl, trivial, hp⟩
    · obtain ⟨pre, q, post, rfl, hpre, hq⟩ := ih fun havoid => h ⟨hp, havoid⟩
      refine ⟨p :: pre, q, post, rfl, ⟨hp, hpre⟩, ?_⟩
      rwa [sum_cons, ← add_assoc]

/-- A part of zeros. -/
def zeroCall (n : Nat) : UpdateCall := ⟨List.replicate n 0, fun _ => 0, 0⟩

/-- A part whose first byte is 1. -/
def markedCall (n : Nat) : UpdateCall := ⟨1 :: List.replicate (n - 1) 0, fun _ => 0, 0⟩

/-- The marked part has its length. -/
theorem ShortPath.length_markedCall (h : ShortPath n p) : (markedCall p).part.length = p := by
  obtain ⟨hlong, hge, -⟩ := h
  have := keptLen_cases n
  simp only [markedCall, length_cons, length_replicate, AES_BLOCK_SIZE] at *
  omega

/-- The message is as long as its parts. -/
theorem length_message (us : List UpdateCall) :
    (message us).length = (us.map (·.part.length)).sum := by
  rw [message, length_flatMap]

/-- The parts of zeros have their lengths. -/
theorem map_length_zeroCall (lens : List Nat) : (lens.map zeroCall).map (·.part.length) = lens := by
  simp [Function.comp_def, zeroCall]

/-- The parts of zeros are objects in memory. -/
theorem zeroCalls_fit (hfits : ∀ n ∈ lens, n < 2 ^ 63) :
    ∀ u ∈ lens.map zeroCall, u.part.length < 2 ^ 63 ∧ ZeroBuf u.out ∧ AllZero u.part := by
  intro u hu
  obtain ⟨n, hn, rfl⟩ := mem_map.mp hu
  refine ⟨by simpa [zeroCall] using hfits n hn, fun _ => rfl, fun x hx => ?_⟩
  exact (mem_replicate.mp hx).2

/-- What is kept of zeros that avoid the short path. -/
theorem len_of_zeroCalls (encrypt : Bool) (hfits : ∀ n ∈ lens, n < 2 ^ 63)
    (havoid : AvoidsShortPath 0 lens) :
    ((idOperation.updates encrypt idOperation.ctx (lens.map zeroCall)).2.context.len : Nat)
      = keptLen lens.sum := by
  have havoid' : AvoidsShortPath 0 ((lens.map zeroCall).map (·.part.length)) := by
    rwa [map_length_zeroCall]
  obtain ⟨X, Q, hcut, -, -, -, hholds⟩ :=
    updates_of_avoidsShortPath idOperation encrypt (holds_initially idOperation encrypt) havoid'
      fun u hu => (zeroCalls_fit hfits u hu).1
  have hlengths := congrArg length hcut
  rw [nil_append, length_message, map_length_zeroCall, length_append] at hlengths
  rw [hholds.len, hholds.kept, nil_append, hlengths]

/-- The short path loses a byte: the message does not come out, whatever comes later. -/
theorem not_conforms_of_shortPath (encrypt : Bool) {pre post : List Nat}
    (hfits : ∀ n ∈ pre ++ p :: post, n < 2 ^ 63) (hpre : AvoidsShortPath 0 pre)
    (hp : ShortPath pre.sum p) (outDataLen : Nat) :
    ¬ idOperation.Conforms encrypt (pre.map zeroCall ++ markedCall p :: post.map zeroCall)
      (fun _ => 0) outDataLen := by
  intro h
  have hpreFits : ∀ n ∈ pre, n < 2 ^ 63 := fun n hn => hfits n (mem_append_left _ hn)
  have hpostFits : ∀ n ∈ post, n < 2 ^ 63 := fun n hn =>
    hfits n (mem_append_right _ (mem_cons_of_mem _ hn))
  have hmarked := hp.length_markedCall
  have hctx₀ : ZeroCtx idOperation.ctx := ⟨rfl, rfl, fun _ => rfl⟩
  obtain ⟨hctx₁, hout₁⟩ := zeroCtx_updates encrypt hctx₀ (zeroCalls_fit hpreFits)
  have hkept := len_of_zeroCalls encrypt hpreFits hpre
  have hall := updates_append idOperation encrypt idOperation.ctx (pre.map zeroCall)
    (markedCall p :: post.map zeroCall)
  generalize (idOperation.updates encrypt idOperation.ctx (pre.map zeroCall)).2 = ctx₁ at *
  -- The marked part is lost, so no call reports its first byte.
  have hlost : 2 * AES_BLOCK_SIZE ≤ ctx₁.context.len + (markedCall p).part.length ∧
      outLenOf ctx₁ (markedCall p) < ctx₁.context.len := by
    obtain ⟨hlong, hge, hlt⟩ := hp
    simp only [outLenOf, hkept, hmarked, AES_BLOCK_SIZE] at *
    omega
  have hpFits : (markedCall p).part.length < 2 ^ 63 := by
    rw [hmarked]
    exact hfits p (mem_append_right _ mem_cons_self)
  obtain ⟨hctx₂, hout₂⟩ :=
    zeroCtx_update encrypt hctx₁ (markedCall p) hpFits (fun _ => rfl) (.inr hlost)
  obtain ⟨hctx₃, hout₃⟩ := zeroCtx_updates encrypt hctx₂ (zeroCalls_fit hpostFits)
  have hzeroFinal : ZeroBuf fun _ => 0 := fun _ => rfl
  obtain ⟨hrc, hout₄⟩ := zeroCtx_final encrypt hctx₃ hzeroFinal outDataLen
  have hfinal : idOperation.final encrypt (pre.map zeroCall ++ markedCall p :: post.map zeroCall)
      (fun _ => 0) outDataLen
      = aesXtsCryptFinal idOperation.tok false encrypt (idOperation.updates encrypt
          (idOperation.update encrypt ctx₁ (markedCall p)).ctx (post.map zeroCall)).2
          (some fun _ => 0) outDataLen := by
    rw [XtsOperation.final, hall]
    rfl
  have hzero : AllZero (idOperation.output encrypt
      (pre.map zeroCall ++ markedCall p :: post.map zeroCall) (fun _ => 0) outDataLen) := by
    rw [XtsOperation.output, hfinal, hall, flatMap_append]
    exact (hout₁.append (hout₂.append hout₃)).append hout₄
  -- The call on the whole message does report it.
  have hone : (1 : UInt8) ∈ message (pre.map zeroCall ++ markedCall p :: post.map zeroCall) :=
    mem_flatMap.mpr ⟨markedCall p, mem_append_right _ mem_cons_self, mem_cons_self⟩
  have hlong : AES_BLOCK_SIZE
      ≤ (message (pre.map zeroCall ++ markedCall p :: post.map zeroCall)).length := by
    have hle := keptLen_le pre.sum
    have hkeptLong := hp.1
    rw [length_message, map_append, map_length_zeroCall, sum_append]
    omega
  obtain ⟨-, heq⟩ := h.single_eq (hfinal ▸ hrc) (fun _ => 0) _ le_rfl
  rw [(single_eq idOperation encrypt hlong _ le_rfl).2] at heq
  have hmem := (mem_idCipher_message encrypt idOperation.firstIv hlong 1).mpr hone
  exact absurd (hzero 1 (heq ▸ hmem)) (by decide)

/-- Multi-part AES-XTS equals single-part AES-XTS, for all tokens, keys, tweaks and messages that
arrive in parts of the given lengths, if and only if no part takes the short path and the
final call has room for what is kept. -/
theorem xts_parts_conform_iff (encrypt : Bool) (lens : List Nat) (hfits : ∀ p ∈ lens, p < 2 ^ 63)
    (hblock : AES_BLOCK_SIZE ≤ lens.sum) (outDataLen : Nat) :
    (∀ (K : Type) (op : XtsOperation K) (us : List UpdateCall) (out : Buf),
        us.map (·.part.length) = lens → op.Conforms encrypt us out outDataLen) ↔
      AvoidsShortPath 0 lens ∧ keptLen lens.sum ≤ outDataLen := by
  constructor
  · intro h
    have havoid : AvoidsShortPath 0 lens := by
      by_contra hnot
      obtain ⟨pre, p, post, rfl, hpre, hp⟩ := exists_shortPath hnot
      rw [zero_add] at hp
      refine not_conforms_of_shortPath encrypt hfits hpre hp outDataLen (h Unit idOperation _ _ ?_)
      rw [map_append, map_cons, map_length_zeroCall, map_length_zeroCall, hp.length_markedCall]
    refine ⟨havoid, not_lt.mp fun hlt => ?_⟩
    -- Without room the final step fails, and nobody is told.
    have hconforms := h Unit idOperation (lens.map zeroCall) (fun _ => 0) (map_length_zeroCall lens)
    have hctx₀ : ZeroCtx idOperation.ctx := ⟨rfl, rfl, fun _ => rfl⟩
    have hkey := (zeroCtx_updates encrypt hctx₀ (zeroCalls_fit hfits)).1.key
    have hsmall := (len_of_zeroCalls encrypt hfits havoid).symm ▸ hlt
    obtain ⟨hstep, hok⟩ := final_of_lt idOperation encrypt hkey (fun _ => 0) hsmall
    refine hconforms.final_error ?_ hok
    rw [XtsOperation.finalStep, hstep]
    decide
  · rintro ⟨havoid, hroom⟩ K op us out rfl
    refine conforms_of_avoidsShortPath op encrypt havoid (fun u hu => ?_) ?_ out ?_
    · exact hfits _ (mem_map_of_mem hu)
    all_goals rwa [length_message]

/-- Parts of 16 and 33 bytes, and a final buffer of 17 bytes. -/
theorem xts_parts_16_33 :
    AES_BLOCK_SIZE ≤ [16, 33].sum ∧ ∀ (K : Type) (op : XtsOperation K) (us : List UpdateCall)
      (out : Buf), us.map (·.part.length) = [16, 33] → op.Conforms true us out 17 :=
  ⟨by decide, (xts_parts_conform_iff true [16, 33] (by decide) (by decide) 17).mpr
    ⟨⟨by decide, by decide, trivial⟩, by decide⟩⟩

/-- 17 bytes of value 1 and then 15 bytes of value 2, with a cipher that changes nothing. All
calls return `CKR_OK`, and 33 bytes come out for 32. The part of 15 bytes is lost. -/
theorem xts_parts_17_15 :
    let us : List UpdateCall :=
      [⟨replicate 17 1, fun _ => 0, 0⟩, ⟨replicate 15 2, fun _ => 0, 0⟩]
    (idOperation.updates true idOperation.ctx us).1.map (·.rc) = [.ok, .ok] ∧
      (idOperation.final true us (fun _ => 0) 64).rc = .ok ∧
      idOperation.output true us (fun _ => 0) 64 = replicate 33 1 ∧
      (idOperation.single true (message us) (fun _ => 0) 64).rc = .ok ∧
      reported (idOperation.single true (message us) (fun _ => 0) 64).out
          (idOperation.single true (message us) (fun _ => 0) 64).outDataLen
        = replicate 17 1 ++ replicate 15 2 := by
  decide +kernel

end OpenCryptoki.Proofs.Common
