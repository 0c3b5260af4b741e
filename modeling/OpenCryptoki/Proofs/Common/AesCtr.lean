import Mathlib.Data.Nat.ModEq
import OpenCryptoki.Common.AesCtr
import OpenCryptoki.Proofs.Common.AesCbcPad

/-!
# `OpenCryptoki.Proofs.Common.AesCtr`: counters of fewer than 128 bits

`ctrSpec` is counter mode as PKCS#11 has it: the low bits of the counter block are incremented, and
the others are kept.

The functions encrypt whole blocks in a few calls of OpenSSL, one for each call of the caller that
completes a block (`ctrCalls`). `aesCtrRun_eq` reduces an operation to these calls. A call of
`openssl_specific_aes_ctr` does not use the counter block that it is given, but the bytes of the
counter followed by zeros (`initOf`), and it stores the bytes of the next counter in front
(`nextOf`). Both are right if the counter has all 128 bits.

`aes_ctr_follows_spec_iff` says when an operation is right, whatever the key is: besides the
counter of 128 bits, there is only the counter block of zeros, and that only for one call.
-/

set_option autoImplicit false

namespace OpenCryptoki.Proofs.Common

open Lib OpenCryptoki.Common List
open Nat (Coprime le_of_dvd mod_eq_of_lt mod_le mod_lt zero_mod zero_mul)

/-! ### Counter blocks -/

/-- The value of the counter block with index `i`, for a counter of `w` bits in a block of value
`c`. -/
def specCounter (w c i : Nat) : Nat := c - c % 2 ^ w + (c + i) % 2 ^ w

/-- Counter mode of PKCS#11. -/
def ctrSpec (aes : AesKey) (ctr : AesCtrParams) (data : List UInt8) : List UInt8 :=
  ctrFrom AES_BLOCK_SIZE aes.enc
    (fun i => counterBlock (specCounter ctr.ulCounterBits (counterOf ctr.cb) i)) 0 data

/-- A counter block is one block. -/
theorem length_counterBlock (c : Nat) : (counterBlock c).length = AES_BLOCK_SIZE :=
  length_wordBytes .big _ c

/-- An encrypted counter block is a block. -/
theorem length_enc_counterBlock (aes : AesKey) (c : Nat) :
    (aes.enc (counterBlock c)).length = AES_BLOCK_SIZE :=
  aes.length_enc _ (length_counterBlock c)

/-- A counter block holds the counter up to its size. -/
theorem counterOf_counterBlock (c : Nat) : counterOf (counterBlock c) = c % 256 ^ AES_BLOCK_SIZE :=
  wordValue_wordBytes .big _ c

variable {b c : List UInt8} {cs : List (List UInt8)} {i : Nat} {count : Nat → Nat}

/-- A block is the counter block of its value. -/
theorem counterBlock_counterOf (hb : b.length = AES_BLOCK_SIZE) :
    counterBlock (counterOf b) = b := by
  unfold counterBlock counterOf
  rw [← hb]
  exact wordBytes_wordValue .big b

/-- The value of a block fits in it. -/
theorem counterOf_lt (hb : b.length = AES_BLOCK_SIZE) : counterOf b < 256 ^ AES_BLOCK_SIZE := by
  rw [← hb]
  exact wordValue_lt .big b

/-- A counter block has 128 bits. -/
theorem counterBlock_eq_iff {c d : Nat} :
    counterBlock c = counterBlock d ↔ c % 256 ^ AES_BLOCK_SIZE = d % 256 ^ AES_BLOCK_SIZE := by
  constructor
  · intro h
    rw [← counterOf_counterBlock, h, counterOf_counterBlock]
  · intro h
    rw [← counterBlock_counterOf (length_counterBlock c), counterOf_counterBlock, h,
      ← counterOf_counterBlock, counterBlock_counterOf (length_counterBlock d)]

/-- All bits of a block. -/
theorem two_pow_128 : 2 ^ 128 = 256 ^ AES_BLOCK_SIZE := by decide

/-! ### One call of OpenSSL -/

/-- The first counter block that `openssl_specific_aes_ctr` uses, for a counter of `k` bytes. -/
def initOf (k : Nat) (cb : List UInt8) : List UInt8 :=
  cb.drop (AES_BLOCK_SIZE - k) ++ List.replicate (AES_BLOCK_SIZE - k) 0

/-- The counter block that it stores. -/
def nextOf (k : Nat) (cb data : List UInt8) : List UInt8 :=
  (counterBlock (counterOf (initOf k cb) + data.length / AES_BLOCK_SIZE)).drop
      (AES_BLOCK_SIZE - k) ++
    cb.drop k

/-- One call of `openssl_specific_aes_ctr`. -/
theorem opensslSpecificAesCtr_eq (aes : AesKey) {cb : List UInt8} (data : List UInt8) {w : Nat}
    (hcb : cb.length = AES_BLOCK_SIZE) (hpos : 0 < w) (hle : w ≤ 128) (hw : w % 8 = 0) :
    opensslSpecificAesCtr aes data cb w = if data.length ≤ INT_MAX then
        .ok ((evpCtr aes (initOf (w / 8) cb) data).1, nextOf (w / 8) cb data)
      else .error (.rc .dataLenRange) := by
  have hwidth : ¬ (w > AES_BLOCK_SIZE * 8 ∨ w = 0) := by
    unfold AES_BLOCK_SIZE
    omega
  -- The counter is the end of the block, but it is copied to the front of the new one.
  have hlow : ∀ b : List UInt8, b.length = AES_BLOCK_SIZE →
      readAt b (AES_BLOCK_SIZE - w / 8) (w / 8) = some (b.drop (AES_BLOCK_SIZE - w / 8)) := by
    intro b hb
    rw [readAt_eq_some (by omega), take_of_length_le]
    rw [length_drop]
    omega
  have hinit : writeAt (replicate AES_BLOCK_SIZE (0 : UInt8)) 0
      (cb.drop (AES_BLOCK_SIZE - w / 8)) = some (initOf (w / 8) cb) := by
    have hlen : (cb.drop (AES_BLOCK_SIZE - w / 8)).length = w / 8 := by
      rw [length_drop]
      omega
    unfold writeAt
    rw [if_pos (.inr (by rw [hlen, length_replicate]; omega)), hlen, take_zero,
      nil_append, zero_add, drop_replicate]
    rfl
  -- The next counter is written to the front too, while it is read from the end.
  have hnext : ∀ low : List UInt8, low.length = w / 8 →
      writeAt cb 0 low = some (low ++ cb.drop (w / 8)) := by
    intro low hlen
    unfold writeAt
    rw [if_pos (.inr (by omega)), hlen, take_zero, nil_append, zero_add]
  unfold opensslSpecificAesCtr opensslCipherPerform
  rw [check_bind hwidth, hlow cb hcb, access_bind, hinit, access_bind]
  by_cases hlen : data.length ≤ INT_MAX
  · rw [check_bind hlen.not_gt, ok_bind, if_pos hlen]
    have hlast : (evpCtr aes (initOf (w / 8) cb) data).2.length = AES_BLOCK_SIZE :=
      length_counterBlock _
    have hdrop : ((evpCtr aes (initOf (w / 8) cb) data).2.drop (AES_BLOCK_SIZE - w / 8)).length
        = w / 8 := by
      rw [length_drop]
      omega
    dsimp only
    rw [hlow _ hlast, access_bind, hnext _ hdrop, access_bind]
    rfl
  · rw [check_bind_not (not_not.mpr (not_le.mp hlen)), error_bind, if_neg hlen]

/-- The last `k` bytes of a block are the low bytes of its value. -/
theorem counterOf_drop {k : Nat} (hk : k ≤ AES_BLOCK_SIZE) (hb : b.length = AES_BLOCK_SIZE) :
    counterOf (b.drop (AES_BLOCK_SIZE - k)) = counterOf b % 256 ^ k := by
  have hlen : (b.drop (AES_BLOCK_SIZE - k)).length = k := by
    rw [length_drop]
    omega
  have hlt : counterOf (b.drop (AES_BLOCK_SIZE - k)) < 256 ^ k := by
    have := wordValue_lt .big (b.drop (AES_BLOCK_SIZE - k))
    rwa [hlen] at this
  conv_rhs => rw [← take_append_drop (AES_BLOCK_SIZE - k) b]
  rw [counterOf, counterOf, wordValue_big_append, hlen, mul_comm, Nat.mul_add_mod]
  exact (mod_eq_of_lt hlt).symm

/-- A block of zeros counts from 0. -/
theorem counterOf_zeros (n : Nat) : counterOf (replicate n 0) = 0 := by
  induction n with
  | zero => rfl
  | succ n ih =>
    rw [replicate_succ', counterOf, wordValue_big_append]
    show counterOf (replicate n 0) * _ + 0 = 0
    rw [ih, zero_mul]

section
variable {k : Nat} (hk : k ≤ AES_BLOCK_SIZE) {cb : List UInt8} (hcb : cb.length = AES_BLOCK_SIZE)
include hk hcb

/-- The value of the first counter block: the counter is at the wrong end. -/
theorem counterOf_initOf :
    counterOf (initOf k cb) = counterOf cb % 256 ^ k * 256 ^ (AES_BLOCK_SIZE - k) := by
  unfold initOf
  rw [counterOf, wordValue_big_append, length_replicate]
  show counterOf _ * _ + counterOf _ = _
  rw [counterOf_zeros, counterOf_drop hk hcb, add_zero]

/-- The value of the counter block that is stored: it is at the wrong end too. -/
theorem counterOf_nextOf (data : List UInt8) :
    counterOf (nextOf k cb data) =
      (counterOf (initOf k cb) + data.length / AES_BLOCK_SIZE) % 256 ^ k *
          256 ^ (AES_BLOCK_SIZE - k) +
        counterOf cb % 256 ^ (AES_BLOCK_SIZE - k) := by
  have hdrop : cb.drop k = cb.drop (AES_BLOCK_SIZE - (AES_BLOCK_SIZE - k)) := by
    rw [Nat.sub_sub_self hk]
  have hlen : (cb.drop k).length = AES_BLOCK_SIZE - k := by
    rw [length_drop, hcb]
  have hmod : ∀ x, x % 256 ^ AES_BLOCK_SIZE % 256 ^ k = x % 256 ^ k := fun x =>
    Nat.mod_mod_of_dvd x (Nat.pow_dvd_pow 256 hk)
  unfold nextOf
  rw [counterOf, wordValue_big_append, hlen]
  show counterOf _ * _ + counterOf _ = _
  rw [counterOf_drop hk (length_counterBlock _), counterOf_counterBlock, hmod, hdrop,
    counterOf_drop (Nat.sub_le _ _) hcb]

/-- The counter block that is stored is one block. -/
theorem length_nextOf (data : List UInt8) : (nextOf k cb data).length = AES_BLOCK_SIZE := by
  unfold nextOf
  rw [length_append, length_drop, length_drop, length_counterBlock]
  omega

end

/-- A number that a shift by whole bytes does not change, in `k` bytes, is zero. -/
theorem eq_zero_of_shift {u k s : Nat} (hs : 0 < s) (h : u = u * 256 ^ s % 256 ^ k) : u = 0 := by
  have hlt : u < 256 ^ k := by
    rw [h]
    exact mod_lt _ (Nat.pow_pos (by decide))
  have hle : u ≤ u * 256 ^ s := Nat.le_mul_of_pos_right u (Nat.pow_pos (by decide))
  -- The difference of both is a multiple of `256 ^ k`, and the factor next to `u` is odd.
  have hdvd : 256 ^ k ∣ u * (256 ^ s - 1) := by
    rw [Nat.mul_sub, mul_one]
    refine (Nat.modEq_iff_dvd' hle).mp ?_
    show u % 256 ^ k = u * 256 ^ s % 256 ^ k
    rw [← h, mod_eq_of_lt hlt]
  have hcoprime : Coprime (256 ^ k) (256 ^ s - 1) := by
    refine Nat.Coprime.pow_left k ?_
    have hone : 1 ≤ 256 ^ s := Nat.pow_pos (by decide)
    have hself : Coprime (256 ^ s) (256 ^ s - 1) :=
      (Nat.coprime_self_sub_right hone).mpr (Nat.coprime_one_right _)
    exact Nat.Coprime.coprime_dvd_left (dvd_pow_self 256 hs.ne') hself
  exact Nat.eq_zero_of_dvd_of_lt (hcoprime.dvd_of_dvd_mul_right hdvd) hlt

/-- A counter of `k` bytes at the front of a block. -/
theorem shifted_lt {k : Nat} (hk : k ≤ AES_BLOCK_SIZE) (v : Nat) :
    v % 256 ^ k * 256 ^ (AES_BLOCK_SIZE - k) < 256 ^ AES_BLOCK_SIZE := by
  have hlt : v % 256 ^ k < 256 ^ k := mod_lt _ (Nat.pow_pos (by decide))
  calc v % 256 ^ k * 256 ^ (AES_BLOCK_SIZE - k)
      < 256 ^ k * 256 ^ (AES_BLOCK_SIZE - k) :=
        Nat.mul_lt_mul_of_pos_right hlt (Nat.pow_pos (by decide))
    _ = 256 ^ AES_BLOCK_SIZE := by rw [← pow_add, Nat.add_sub_cancel' hk]

/-! ### The calls of an operation -/

/-- The whole blocks that each call with a part of the data completes, with the bytes `kept` from
the calls before. A call that completes no block is left out. -/
def blockCalls : List UInt8 → List (List UInt8) → List (List UInt8)
  | _, []               => []
  | kept, part :: parts =>
    if (kept ++ part).length < AES_BLOCK_SIZE then blockCalls (kept ++ part) parts
    else whole AES_BLOCK_SIZE (kept ++ part) ::
      blockCalls (rest AES_BLOCK_SIZE (kept ++ part)) parts

/-- The calls of OpenSSL in an operation. -/
def ctrCalls : CtrSupply → List (List UInt8)
  | .single data => if data = [] then [] else [data]
  | .parts ps    => blockCalls [] ps

/-- The output of calls of OpenSSL, for a counter of `k` bytes. -/
def callsOut (aes : AesKey) (k : Nat) : List UInt8 → List (List UInt8) → List UInt8
  | _, []      => []
  | cb, c :: cs => (evpCtr aes (initOf k cb) c).1 ++ callsOut aes k (nextOf k cb c) cs

/-- What is kept is less than a block. -/
theorem length_rest_lt (xs : List UInt8) : (rest AES_BLOCK_SIZE xs).length < AES_BLOCK_SIZE := by
  rw [length_rest]
  exact mod_lt _ aesBlock_pos

variable (parts : List (List UInt8))

/-- The calls get the whole blocks of the data. -/
theorem flatten_blockCalls :
    ∀ kept : List UInt8, kept.length < AES_BLOCK_SIZE →
      (blockCalls kept parts).flatten = whole AES_BLOCK_SIZE (kept ++ parts.flatten) := by
  induction parts with
  | nil =>
    intro kept hkept
    rw [flatten_nil, append_nil, whole_of_lt hkept]
    rfl
  | cons part parts ih =>
    intro kept hkept
    rw [blockCalls, flatten_cons, ← append_assoc]
    by_cases hshort : (kept ++ part).length < AES_BLOCK_SIZE
    · rw [if_pos hshort, ih _ hshort]
    · rw [if_neg hshort, flatten_cons, ih _ (length_rest_lt _), ← whole_append]

/-- Each call is for blocks. -/
theorem blockCalls_blocks :
    ∀ {kept c : List UInt8}, c ∈ blockCalls kept parts → c ≠ [] ∧ AES_BLOCK_SIZE ∣ c.length := by
  induction parts with
  | nil =>
    intro kept c hc
    cases hc
  | cons part parts ih =>
    intro kept c hc
    rw [blockCalls] at hc
    by_cases hshort : (kept ++ part).length < AES_BLOCK_SIZE
    · rw [if_pos hshort] at hc
      exact ih hc
    · rw [if_neg hshort] at hc
      rcases mem_cons.mp hc with rfl | hc
      · refine ⟨fun hnil => ?_, dvd_length_whole _ _⟩
        have hzero := congrArg length hnil
        rw [length_whole, length_nil] at hzero
        have := mod_lt (kept ++ part).length aesBlock_pos
        omega
      · exact ih hc

section
variable {supply : CtrSupply} (hdata : AES_BLOCK_SIZE ∣ supply.data.length)
include hdata

/-- The calls get all of the data. -/
theorem flatten_ctrCalls : (ctrCalls supply).flatten = supply.data := by
  cases supply with
  | single data =>
    show (if data = [] then [] else [data]).flatten = data
    split
    · next hnil => rw [hnil]; rfl
    · rw [flatten_singleton]
  | parts ps =>
    show (blockCalls [] ps).flatten = ps.flatten
    rw [flatten_blockCalls ps [] aesBlock_pos, nil_append]
    exact whole_of_dvd hdata

/-- Every call gets whole blocks, at least one. -/
theorem ctrCalls_blocks (hc : c ∈ ctrCalls supply) : c ≠ [] ∧ AES_BLOCK_SIZE ∣ c.length := by
  cases supply with
  | single data =>
    have hc : c ∈ if data = [] then [] else [data] := hc
    split at hc
    · cases hc
    · next hne =>
      rw [mem_singleton.mp hc]
      exact ⟨hne, hdata⟩
  | parts ps => exact blockCalls_blocks ps hc

end

section
variable {ctr : AesCtrParams} (hwidth : aesCtrInit ctr = .ok ())
include hwidth

/-- The widths of the counter that the init function accepts. -/
theorem width_of_init :
    0 < ctr.ulCounterBits ∧ ctr.ulCounterBits ≤ 128 ∧ ctr.ulCounterBits % 8 = 0 := by
  have := check_eq_ok.mp hwidth
  omega

/-- The counter fits in a block. -/
theorem counterBytes_le : ctr.ulCounterBits / 8 ≤ AES_BLOCK_SIZE := by
  have := (width_of_init hwidth).2.1
  unfold AES_BLOCK_SIZE
  omega

variable {outDataLen : Nat} (aes : AesKey)

/-- A call whose output fits reaches the token. -/
theorem ckmAesCtrCrypt_eq {cb data : List UInt8} (hcb : cb.length = AES_BLOCK_SIZE)
    (hroom : data.length ≤ outDataLen) :
    ckmAesCtrCrypt aes data outDataLen cb ctr.ulCounterBits = if data.length ≤ INT_MAX then
        .ok ((evpCtr aes (initOf (ctr.ulCounterBits / 8) cb) data).1,
          nextOf (ctr.ulCounterBits / 8) cb data)
      else .error (.rc .dataLenRange) := by
  obtain ⟨hpos, hle, hmod⟩ := width_of_init hwidth
  unfold ckmAesCtrCrypt
  rw [check_bind hroom.not_gt, check_bind hmod,
    opensslSpecificAesCtr_eq aes data hcb hpos hle hmod]

/-- One call with a part of the data. -/
theorem aesCtrCryptUpdate_eq {ctx : CtrContext} {part : List UInt8}
    (hcb : ctx.cb.length = AES_BLOCK_SIZE) (hkept : ctx.data.length < AES_BLOCK_SIZE)
    (hroom : (ctx.data ++ part).length ≤ outDataLen) :
    aesCtrCryptUpdate aes ctr.ulCounterBits ctx part outDataLen =
      if (ctx.data ++ part).length < AES_BLOCK_SIZE then
        .ok ([], { ctx with data := ctx.data ++ part })
      else if (whole AES_BLOCK_SIZE (ctx.data ++ part)).length ≤ INT_MAX then
        .ok ((evpCtr aes (initOf (ctr.ulCounterBits / 8) ctx.cb)
            (whole AES_BLOCK_SIZE (ctx.data ++ part))).1,
          { cb := nextOf (ctr.ulCounterBits / 8) ctx.cb (whole AES_BLOCK_SIZE (ctx.data ++ part))
            data := rest AES_BLOCK_SIZE (ctx.data ++ part) })
      else .error (.rc .dataLenRange) := by
  have hlen : (ctx.data ++ part).length = ctx.data.length + part.length := length_append
  have hmax : INT_MAX + AES_BLOCK_SIZE ≤ ULONG_MAX - AES_BLOCK_SIZE := by decide
  have hrest := mod_lt (ctx.data ++ part).length aesBlock_pos
  unfold aesCtrCryptUpdate
  by_cases hhuge : part.length > ULONG_MAX - ctx.data.length
  -- The source refuses such a length at its first check, with the same code as for `INT_MAX`.
  · have hshort : ¬ (ctx.data ++ part).length < AES_BLOCK_SIZE := by omega
    have hlong : ¬ (whole AES_BLOCK_SIZE (ctx.data ++ part)).length ≤ INT_MAX := by
      rw [length_whole]
      omega
    rw [check_bind_not (not_not.mpr hhuge), if_neg hshort, if_neg hlong]
  · rw [check_bind hhuge]
    dsimp only
    rw [← hlen]
    by_cases hshort : (ctx.data ++ part).length < AES_BLOCK_SIZE
    · rw [if_pos hshort, if_pos hshort]
    · rw [if_neg hshort, if_neg hshort]
      have hblock : AES_BLOCK_SIZE ≤ (ctx.data ++ part).length := not_lt.mp hshort
      have hremain : (ctx.data ++ part).length % AES_BLOCK_SIZE ≤
          (ctx.data ++ part).length - AES_BLOCK_SIZE := by
        rw [Nat.mod_eq_sub_mod hblock]
        exact mod_le _ _
      -- The bytes kept from before are completed to whole blocks, and the rest is kept again.
      have hwhole := whole_of_kept hkept hblock
      have hdata := rest_of_kept hkept hblock
      rw [readAt_eq_some (by omega), access_bind, drop_zero, ← hwhole,
        ckmAesCtrCrypt_eq hwidth aes hcb (by rw [length_whole]; omega)]
      by_cases hint : (whole AES_BLOCK_SIZE (ctx.data ++ part)).length ≤ INT_MAX
      · have htail : (part.drop (part.length - (ctx.data ++ part).length % AES_BLOCK_SIZE)).length ≤
            (ctx.data ++ part).length % AES_BLOCK_SIZE := by
          rw [length_drop]
          omega
        rw [if_pos hint, if_pos hint, ok_bind, readAt_eq_some (by omega), access_bind,
          take_of_length_le htail, hdata]
      · rw [if_neg hint, if_neg hint, error_bind]

/-- All the calls with the parts of the data. -/
theorem aesCtrUpdates_eq (parts : List (List UInt8)) :
    ∀ ctx : CtrContext, ctx.cb.length = AES_BLOCK_SIZE → ctx.data.length < AES_BLOCK_SIZE →
      (ctx.data ++ parts.flatten).length ≤ outDataLen →
      if ∀ c ∈ blockCalls ctx.data parts, c.length ≤ INT_MAX then
        ∃ cb, aesCtrUpdates aes ctr.ulCounterBits outDataLen ctx parts =
          .ok (callsOut aes (ctr.ulCounterBits / 8) ctx.cb (blockCalls ctx.data parts),
            { cb := cb, data := rest AES_BLOCK_SIZE (ctx.data ++ parts.flatten) })
      else aesCtrUpdates aes ctr.ulCounterBits outDataLen ctx parts =
        .error (.rc .dataLenRange) := by
  induction parts with
  | nil =>
    intro ctx _ hkept _
    rw [if_pos (fun c hc => by cases hc), flatten_nil, append_nil, rest_of_lt hkept]
    exact ⟨ctx.cb, rfl⟩
  | cons part parts ih =>
    intro ctx hcb hkept hroom
    rw [flatten_cons, ← append_assoc] at hroom ⊢
    have hpart : (ctx.data ++ part).length ≤ outDataLen := by
      rw [length_append] at hroom
      omega
    have hk := counterBytes_le hwidth
    rw [aesCtrUpdates, aesCtrCryptUpdate_eq hwidth aes hcb hkept hpart, blockCalls]
    by_cases hshort : (ctx.data ++ part).length < AES_BLOCK_SIZE
    · -- No block is complete: the bytes are kept.
      have hih := ih { ctx with data := ctx.data ++ part } hcb hshort hroom
      rw [if_pos hshort, if_pos hshort, ok_bind]
      dsimp only at hih ⊢
      split
      · next hall =>
        rw [if_pos hall] at hih
        obtain ⟨cb, hrun⟩ := hih
        refine ⟨cb, ?_⟩
        rw [hrun, ok_bind, nil_append]
      · next hall =>
        rw [if_neg hall] at hih
        rw [hih, error_bind]
    · rw [if_neg hshort, if_neg hshort]
      by_cases hint : (whole AES_BLOCK_SIZE (ctx.data ++ part)).length ≤ INT_MAX
      · have hroom' : (rest AES_BLOCK_SIZE (ctx.data ++ part) ++ parts.flatten).length ≤
            outDataLen := by
          have hmod := mod_le (ctx.data ++ part).length AES_BLOCK_SIZE
          rw [length_append] at hroom
          rw [length_append, length_rest]
          omega
        have hih := ih ⟨nextOf (ctr.ulCounterBits / 8) ctx.cb
            (whole AES_BLOCK_SIZE (ctx.data ++ part)), rest AES_BLOCK_SIZE (ctx.data ++ part)⟩
          (length_nextOf hk hcb _) (length_rest_lt _) hroom'
        rw [if_pos hint, ok_bind, rest_append AES_BLOCK_SIZE (ctx.data ++ part) parts.flatten]
        dsimp only at hih ⊢
        split
        · next hall =>
          rw [if_pos fun c hc => hall c (mem_cons_of_mem _ hc)] at hih
          obtain ⟨cb, hrun⟩ := hih
          refine ⟨cb, ?_⟩
          rw [hrun, ok_bind]
          rfl
        · next hall =>
          rw [if_neg fun h => hall (forall_mem_cons.mpr ⟨hint, h⟩)] at hih
          rw [hih, error_bind]
      · rw [if_neg hint, error_bind, if_neg fun h => hint (h _ mem_cons_self)]

/-- An operation is its calls of OpenSSL. -/
theorem aesCtrRun_eq (mode : CtrMode) (aes : AesKey) {supply : CtrSupply}
    (hdata : AES_BLOCK_SIZE ∣ supply.data.length) (hroom : supply.data.length ≤ outDataLen) :
    aesCtrRun mode aes ctr outDataLen supply = if ∀ c ∈ ctrCalls supply, c.length ≤ INT_MAX then
        .ok (callsOut aes (ctr.ulCounterBits / 8) ctr.cb (ctrCalls supply))
      else .error (.rc .dataLenRange) := by
  cases supply with
  | single data =>
    have hmod : data.length % AES_BLOCK_SIZE = 0 := Nat.mod_eq_zero_of_dvd hdata
    have hfits : data.length ≤ outDataLen := hroom
    show aesCtrCrypt mode aes ctr data outDataLen = _
    unfold aesCtrCrypt
    rw [check_bind hmod, check_bind hfits.not_gt,
      ckmAesCtrCrypt_eq hwidth aes ctr.length_cb hfits, ctrCalls]
    by_cases hnil : data = []
    · rw [if_pos hnil, hnil, if_pos (show ([] : List UInt8).length ≤ INT_MAX from zero_le),
        if_pos (fun c hc => by cases hc)]
      rfl
    · rw [if_neg hnil]
      have hone : (∀ c ∈ [data], c.length ≤ INT_MAX) ↔ data.length ≤ INT_MAX :=
        forall_mem_singleton
      by_cases hint : data.length ≤ INT_MAX
      · rw [if_pos hint, if_pos (hone.mpr hint), ok_bind]
        exact congrArg Except.ok (append_nil _).symm
      · rw [if_neg hint, if_neg (fun h => hint (hone.mp h)), error_bind]
  | parts ps =>
    have hrun := aesCtrUpdates_eq hwidth aes ps { cb := ctr.cb, data := [] } ctr.length_cb
      aesBlock_pos hroom
    -- The data ends on a block, so nothing is left for the final call.
    have hrest : rest AES_BLOCK_SIZE ps.flatten = [] := by
      rw [← length_eq_zero_iff, length_rest]
      exact Nat.mod_eq_zero_of_dvd hdata
    rw [nil_append, hrest] at hrun
    show (aesCtrUpdates aes _ outDataLen { cb := ctr.cb, data := [] } ps >>= _) = _
    rw [ctrCalls]
    split
    · next hall =>
      rw [if_pos hall] at hrun
      obtain ⟨cb, hrun⟩ := hrun
      rw [hrun, ok_bind]
      rfl
    · next hall =>
      rw [if_neg hall] at hrun
      rw [hrun, error_bind]

end

/-! ### Right and wrong counters -/

/-- Calls of whole blocks make up whole blocks. -/
theorem dvd_length_flatten (hcs : ∀ c ∈ cs, AES_BLOCK_SIZE ∣ c.length) :
    AES_BLOCK_SIZE ∣ cs.flatten.length := by
  induction cs with
  | nil => exact Nat.dvd_zero _
  | cons c cs ih =>
    obtain ⟨hc, hcs⟩ := forall_mem_cons.mp hcs
    rw [flatten_cons, length_append]
    exact Nat.dvd_add hc (ih hcs)

/-- With a counter of 128 bits the calls go on where the last one has stopped. -/
theorem callsOut_full (aes : AesKey) (hcs : ∀ c ∈ cs, AES_BLOCK_SIZE ∣ c.length) :
    ∀ {cb : List UInt8}, cb.length = AES_BLOCK_SIZE → callsOut aes AES_BLOCK_SIZE cb cs =
        ctrFrom AES_BLOCK_SIZE aes.enc (fun i => counterBlock (counterOf cb + i)) 0 cs.flatten := by
  induction cs with
  | nil =>
    intro cb _
    simp [callsOut]
  | cons c cs ih =>
    intro cb hcb
    obtain ⟨hc, hcs⟩ := forall_mem_cons.mp hcs
    have hflat := dvd_length_flatten hcs
    have hinit : initOf AES_BLOCK_SIZE cb = cb := by
      simp [initOf]
    have hnext : nextOf AES_BLOCK_SIZE cb c =
        counterBlock (counterOf cb + c.length / AES_BLOCK_SIZE) := by
      unfold nextOf
      rw [hinit, Nat.sub_self, drop_zero, drop_of_length_le hcb.le, append_nil]
    rw [callsOut, hinit, hnext, ih hcs (length_counterBlock _), flatten_cons,
      ctrFrom_append aesBlock_pos hc hflat, evpCtr, append_cancel_left_eq]
    refine ctrFrom_congr aesBlock_pos hflat fun j _ => ?_
    rw [counterBlock_eq_iff, counterOf_counterBlock, Nat.mod_add_mod, zero_add, zero_add,
      add_assoc]

section
variable {aes : AesKey} {k : Nat} {cb : List UInt8}
  (hcs : ∀ d ∈ c :: cs, d ≠ [] ∧ AES_BLOCK_SIZE ∣ d.length)
  (h : callsOut aes k cb (c :: cs) = ctrFrom AES_BLOCK_SIZE aes.enc (fun i => counterBlock
    (count i)) i (c :: cs).flatten)
include hcs h

/-- The output of the first call, and that of the others. -/
theorem callsOut_cons_eq :
    ctrFrom AES_BLOCK_SIZE aes.enc (fun i => counterBlock (counterOf (initOf k cb) + i)) 0 c =
        ctrFrom AES_BLOCK_SIZE aes.enc (fun i => counterBlock (count i)) i c ∧
      callsOut aes k (nextOf k cb c) cs =
        ctrFrom AES_BLOCK_SIZE aes.enc (fun i => counterBlock (count i))
          (i + c.length / AES_BLOCK_SIZE) cs.flatten := by
  have hc := (hcs c mem_cons_self).2
  have hflat : AES_BLOCK_SIZE ∣ cs.flatten.length :=
    dvd_length_flatten fun d hd => (hcs d (mem_cons_of_mem c hd)).2
  have hlen (f : Nat → Nat) (i : Nat) :
      (ctrFrom AES_BLOCK_SIZE aes.enc (fun i => counterBlock (f i)) i c).length = c.length :=
    length_ctrFrom (fun i => length_enc_counterBlock aes (f i)) aesBlock_pos hc
  have hcons : callsOut aes k cb (c :: cs) =
      ctrFrom AES_BLOCK_SIZE aes.enc (fun i => counterBlock (counterOf (initOf k cb) + i)) 0 c ++
        callsOut aes k (nextOf k cb c) cs := rfl
  rw [hcons, flatten_cons, ctrFrom_append aesBlock_pos hc hflat] at h
  exact append_inj h (by rw [hlen fun i => counterOf (initOf k cb) + i, hlen count])

/-- What the first block of the first call says about the counter block that it uses: AES with a key
does not map two counter blocks to one block. -/
theorem counter_of_callsOut : counterBlock (counterOf (initOf k cb)) = counterBlock (count i) := by
  obtain ⟨hne, hc⟩ := hcs c mem_cons_self
  have hle : AES_BLOCK_SIZE ≤ c.length := le_of_dvd (length_pos_iff.mpr hne) hc
  have hxs : AES_BLOCK_SIZE ∣ (c.drop AES_BLOCK_SIZE).length := by
    rw [length_drop]
    exact Nat.dvd_sub hc dvd_rfl
  have hfirst := (callsOut_cons_eq hcs h).1
  rw [← take_append_drop AES_BLOCK_SIZE c] at hfirst
  have henc := mask_eq_of_ctrFrom_eq aesBlock_pos (fun _ => length_enc_counterBlock aes _)
    (fun _ => length_enc_counterBlock aes _) (length_take_of_le hle) hxs hfirst
  rw [← aes.dec_enc _ (length_counterBlock (counterOf (initOf k cb))),
    ← aes.dec_enc _ (length_counterBlock (count i))]
  exact congrArg aes.dec henc

end

/-- The first block uses the counter block itself. -/
theorem specCounter_zero (w c : Nat) : specCounter w c 0 = c := by
  unfold specCounter
  rw [add_zero]
  exact Nat.sub_add_cancel (mod_le _ _)

/-- The operation is right for a key: an encryption gives counter mode of PKCS#11, and a decryption
undoes it. -/
structure FollowsSpec (aes : AesKey) (ctr : AesCtrParams) (outDataLen : Nat) (supply : CtrSupply) :
    Prop where
  encrypt : aesCtrRun ctrEncrypt aes ctr outDataLen supply = .ok (ctrSpec aes ctr supply.data)
  decrypt : ∃ clear, aesCtrRun ctrDecrypt aes ctr outDataLen supply = .ok clear ∧
    ctrSpec aes ctr clear = supply.data

/-- When an operation is right. -/
structure RightCounter (ctr : AesCtrParams) (supply : CtrSupply) : Prop where
  length_le : ∀ c ∈ ctrCalls supply, c.length ≤ INT_MAX
  counter : ctr.ulCounterBits = 128 ∨ ctrCalls supply = [] ∨
    ((ctrCalls supply).length = 1 ∧ counterOf ctr.cb = 0)

section
variable {ctr : AesCtrParams} (hwidth : aesCtrInit ctr = .ok ()) {supply : CtrSupply}
  (hdata : AES_BLOCK_SIZE ∣ supply.data.length)
  (hcount : supply.data.length / AES_BLOCK_SIZE ≤
    2 ^ ctr.ulCounterBits - counterOf ctr.cb % 2 ^ ctr.ulCounterBits)
include hwidth hdata hcount

/-- The calls with a right counter give counter mode of PKCS#11. -/
theorem callsOut_of_rightCounter (aes : AesKey) (hright : RightCounter ctr supply) :
    callsOut aes (ctr.ulCounterBits / 8) ctr.cb (ctrCalls supply) =
      ctrSpec aes ctr supply.data := by
  have hblocks : ∀ c ∈ ctrCalls supply, AES_BLOCK_SIZE ∣ c.length := fun c hc =>
    (ctrCalls_blocks hdata hc).2
  have hflat := flatten_ctrCalls hdata
  have hlt := counterOf_lt ctr.length_cb
  unfold ctrSpec
  rcases hright.counter with h128 | hnil | ⟨hone, hzero⟩
  · have hk : ctr.ulCounterBits / 8 = AES_BLOCK_SIZE := by
      rw [h128]
      rfl
    rw [hk, callsOut_full aes hblocks ctr.length_cb, hflat]
    refine ctrFrom_congr aesBlock_pos hdata fun j _ => ?_
    rw [zero_add, counterBlock_eq_iff, specCounter, h128, two_pow_128, mod_eq_of_lt hlt,
      Nat.sub_self, zero_add, Nat.mod_mod]
  · rw [← hflat, hnil]
    simp [callsOut]
  · -- One call, from a block of zeros.
    obtain ⟨c, hc⟩ := length_eq_one_iff.mp hone
    have hk := counterBytes_le hwidth
    have hinit : counterOf (initOf (ctr.ulCounterBits / 8) ctr.cb) = 0 := by
      rw [counterOf_initOf hk ctr.length_cb, hzero, zero_mod, zero_mul]
    have hsupply : c = supply.data := by
      rw [hc, flatten_singleton] at hflat
      exact hflat
    rw [hc, callsOut, callsOut, append_nil, evpCtr, hinit, hzero, hsupply]
    refine ctrFrom_congr aesBlock_pos hdata fun j hj => ?_
    rw [hzero, zero_mod, Nat.sub_zero] at hcount
    rw [specCounter, zero_mod, Nat.sub_self, zero_add, zero_add, zero_add,
      mod_eq_of_lt (hj.trans_le hcount)]

/-- With a counter of fewer than 128 bits the first call is right only for a block of zeros, and the
second one is never right. -/
theorem counter_of_callsOut_spec {aes : AesKey} (hw : ctr.ulCounterBits ≠ 128)
    (h : callsOut aes (ctr.ulCounterBits / 8) ctr.cb (ctrCalls supply) =
      ctrSpec aes ctr supply.data) :
    ctrCalls supply = [] ∨ ((ctrCalls supply).length = 1 ∧ counterOf ctr.cb = 0) := by
  have hblocks := fun c (hc : c ∈ ctrCalls supply) => ctrCalls_blocks hdata hc
  have hflat := flatten_ctrCalls hdata
  obtain ⟨hpos, hle, hmod⟩ := width_of_init hwidth
  have hpow : 2 ^ ctr.ulCounterBits = 256 ^ (ctr.ulCounterBits / 8) := by
    rw [show (256 : Nat) = 2 ^ 8 from rfl, ← pow_mul,
      Nat.mul_div_cancel' (Nat.dvd_of_mod_eq_zero hmod)]
  generalize hk : ctr.ulCounterBits / 8 = k at h hpow
  have hk16 : k < AES_BLOCK_SIZE := by
    unfold AES_BLOCK_SIZE
    omega
  have hshift : 0 < AES_BLOCK_SIZE - k := by omega
  rw [← hflat] at h
  cases hcalls : ctrCalls supply with
  | nil => exact .inl rfl
  | cons c cs =>
    refine .inr ?_
    rw [hcalls] at h hblocks hflat
    -- The first call.
    have hfirst := counter_of_callsOut hblocks h
    rw [specCounter_zero, counterBlock_eq_iff, mod_eq_of_lt (counterOf_lt ctr.length_cb),
      counterOf_initOf hk16.le ctr.length_cb, mod_eq_of_lt (shifted_lt hk16.le _)] at hfirst
    have hzero : counterOf ctr.cb = 0 := by
      have hlow : counterOf ctr.cb % 256 ^ k = 0 :=
        eq_zero_of_shift hshift (by conv_lhs => rw [← hfirst])
      rw [← hfirst, hlow, zero_mul]
    refine ⟨?_, hzero⟩
    cases cs with
    | nil => rfl
    | cons c' cs =>
      exfalso
      obtain ⟨hne, hc⟩ := hblocks c mem_cons_self
      -- The first call is for `m` blocks, and at least one block is left.
      generalize hm : c.length / AES_BLOCK_SIZE = m
      have hmpos : 0 < m := by
        rw [← hm]
        exact Nat.div_pos (le_of_dvd (length_pos_iff.mpr hne) hc) aesBlock_pos
      have hmlt : m < 256 ^ k := by
        obtain ⟨hne', hc'⟩ := hblocks c' (by simp)
        have hpos' : 0 < c'.length := length_pos_iff.mpr hne'
        have hlen : c.length + AES_BLOCK_SIZE ≤ supply.data.length := by
          rw [← hflat, flatten_cons, flatten_cons, length_append, length_append]
          have := le_of_dvd hpos' hc'
          omega
        have hdiv := Nat.div_le_div_right (c := AES_BLOCK_SIZE) hlen
        rw [Nat.add_div_right _ aesBlock_pos, hm] at hdiv
        rw [hzero, zero_mod, Nat.sub_zero, hpow] at hcount
        omega
      -- The second call.
      have hsecond := counter_of_callsOut (fun d hd => hblocks d (mem_cons_of_mem c hd))
        (callsOut_cons_eq hblocks h).2
      have hm128 : m < 256 ^ AES_BLOCK_SIZE :=
        hmlt.trans_le (Nat.pow_le_pow_right (by decide) hk16.le)
      have hspec : specCounter ctr.ulCounterBits (counterOf ctr.cb) (0 + m) = m := by
        rw [specCounter, hzero, hpow, zero_mod, Nat.sub_self, zero_add, zero_add,
          zero_add, mod_eq_of_lt hmlt]
      have hnext : counterOf (nextOf k ctr.cb c) = m * 256 ^ (AES_BLOCK_SIZE - k) := by
        rw [counterOf_nextOf hk16.le ctr.length_cb, counterOf_initOf hk16.le ctr.length_cb,
          hzero, hm,
          zero_mod, zero_mul, zero_add, zero_mod, add_zero,
          mod_eq_of_lt hmlt]
      rw [hm, hspec, counterBlock_eq_iff, mod_eq_of_lt hm128,
        counterOf_initOf hk16.le (length_nextOf hk16.le ctr.length_cb c),
        mod_eq_of_lt (shifted_lt hk16.le _), hnext] at hsecond
      have hlow : m * 256 ^ (AES_BLOCK_SIZE - k) % 256 ^ k = 0 := by
        refine eq_zero_of_shift (k := k) (s := 2 * (AES_BLOCK_SIZE - k)) (by omega) ?_
        conv_lhs => rw [← hsecond]
        rw [mul_assoc, ← pow_add, ← two_mul]
      rw [hlow, zero_mul] at hsecond
      exact hmpos.ne hsecond

/-- An operation follows PKCS#11, with any key, if and only if its counter has 128 bits, or it
starts with a block of zeros and is done in one call, and no call is for more than `INT_MAX` bytes.
-/
theorem aes_ctr_follows_spec_iff (aes : AesKey) {outDataLen : Nat}
    (hroom : supply.data.length ≤ outDataLen) :
    FollowsSpec aes ctr outDataLen supply ↔ RightCounter ctr supply := by
  constructor
  · intro h
    have hrun := h.encrypt
    rw [aesCtrRun_eq hwidth ctrEncrypt aes hdata hroom] at hrun
    by_cases hint : ∀ c ∈ ctrCalls supply, c.length ≤ INT_MAX
    · rw [if_pos hint] at hrun
      refine ⟨hint, ?_⟩
      by_cases hw : ctr.ulCounterBits = 128
      · exact .inl hw
      · exact .inr (counter_of_callsOut_spec hwidth hdata hcount hw (Except.ok.inj hrun))
    · rw [if_neg hint] at hrun
      cases hrun
  · intro hright
    have hout := callsOut_of_rightCounter hwidth hdata hcount aes hright
    have hrun : ∀ mode, aesCtrRun mode aes ctr outDataLen supply =
        .ok (ctrSpec aes ctr supply.data) := by
      intro mode
      rw [aesCtrRun_eq hwidth mode aes hdata hroom, if_pos hright.length_le, hout]
    refine ⟨hrun _, _, hrun _, ?_⟩
    exact ctrFrom_ctrFrom (fun i => length_enc_counterBlock aes _) aesBlock_pos hdata

end

/-- A counter of 128 bits. -/
def fullCounter : AesCtrParams where
  ulCounterBits := 128
  cb := List.replicate 16 0xFF
  length_cb := rfl

/-- A counter of 128 bits, and 16 bytes in two parts. -/
theorem aes_ctr_follows_spec_full :
    aesCtrInit fullCounter = .ok () ∧
    ∀ aes : AesKey, FollowsSpec aes fullCounter 32 (.parts [[1, 2, 3], List.replicate 13 0]) := by
  refine ⟨rfl, fun aes => ?_⟩
  refine (aes_ctr_follows_spec_iff rfl (by decide) (by decide) aes (by decide)).mpr ⟨?_, .inl rfl⟩
  decide

/-- A counter of 64 bits that starts with one. -/
def halfCounter : AesCtrParams where
  ulCounterBits := 64
  cb := List.replicate 15 0 ++ [1]
  length_cb := rfl

/-- The first block of zeros is masked with a counter block that has the one at byte 7. -/
theorem half_counter_wrong :
    aesCtrInit halfCounter = .ok () ∧
    aesCtrRun ctrEncrypt nullCipher halfCounter 16 (.single (List.replicate 16 0)) =
      .ok (List.replicate 7 0 ++ [1] ++ List.replicate 8 0) ∧
    ctrSpec nullCipher halfCounter (List.replicate 16 0) = List.replicate 15 0 ++ [1] := by
  refine ⟨rfl, by decide +kernel, by decide +kernel⟩

/-- With every counter, also a wrong one, a decryption in one call undoes an encryption in one
call. -/
theorem aes_ctr_decrypt_encrypt (aes : AesKey) {ctr : AesCtrParams} {data out : List UInt8}
    {outDataLen : Nat} (hwidth : aesCtrInit ctr = .ok ())
    (h : aesCtrEncrypt aes ctr data outDataLen = .ok out) :
    aesCtrDecrypt aes ctr out outDataLen = .ok data := by
  have hblock := fun i => aes.length_enc _
    (length_counterBlock (counterOf (initOf (ctr.ulCounterBits / 8) ctr.cb) + i))
  unfold aesCtrEncrypt aesCtrCrypt at h
  obtain ⟨hmod, hroom, h⟩ : data.length % AES_BLOCK_SIZE = 0 ∧ data.length ≤ outDataLen ∧ _ :=
    by simpa only [check_bind_eq_ok, not_lt] using h
  rw [ckmAesCtrCrypt_eq hwidth aes ctr.length_cb hroom] at h
  split at h
  · next hint =>
    cases h
    have hdvd := Nat.dvd_of_mod_eq_zero hmod
    have hlen := length_ctrFrom (i := 0) hblock aesBlock_pos hdvd
    unfold aesCtrDecrypt aesCtrCrypt evpCtr
    rw [check_bind (hlen ▸ hmod), check_bind (hlen ▸ hroom).not_gt,
      ckmAesCtrCrypt_eq hwidth aes ctr.length_cb (hlen ▸ hroom), if_pos (hlen ▸ hint)]
    exact congrArg Except.ok (ctrFrom_ctrFrom hblock aesBlock_pos hdvd)
  · cases h

/-- Decryption makes the same mistake, so the data comes back. -/
theorem half_counter_undone :
    aesCtrDecrypt nullCipher halfCounter (List.replicate 7 0 ++ [1] ++ List.replicate 8 0) 16 =
      .ok (List.replicate 16 0) :=
  aes_ctr_decrypt_encrypt nullCipher rfl (by decide +kernel)

end OpenCryptoki.Proofs.Common
