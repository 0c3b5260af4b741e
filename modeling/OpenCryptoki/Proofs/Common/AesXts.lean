import OpenCryptoki.Common.AesXts

/-!
# `OpenCryptoki.Proofs.Common.AesXts`: AES-XTS is invertible

`aes_xts_cipher` works in memory: it writes full blocks, reads the last one back and writes
over it. `cryptData_not_final`, `cryptData_final_encrypt` and `cryptData_final_decrypt` say
what is in memory afterwards when `cipher_blocks` is a cipher on single blocks. In all cases
it is one write of a list, and the list is `run`, `encSteal` or `decSteal` of
`Lib/BlockMap.lean`.

A message may come in several calls, all but the last one with full blocks.
`xtsCalls_ofCipher` says that the calls do together what one call on the whole message does.
So an encryption and a decryption need not cut the message in the same way, and
`aes_xts_decrypt_encrypt` follows from the inversion of the stealing.
-/

set_option autoImplicit false

namespace OpenCryptoki.Proofs.Common

open Lib OpenCryptoki.Common
open BlockCipher (decSteal decTail encSteal encTail stealTail steal_cut)
open XtsCallbacks (cryptData ofCipher stealBlock)

/-! ### `aes_xts_cipher` over a cipher on blocks -/

section
open List

variable (ivFromTweak : AesBlock → AesBlock) (c : BlockCipher UInt8 AesBlock AES_BLOCK_SIZE)
  (buf : Buf) (iv : AesBlock)

/-- Blocks are not empty. -/
theorem aes_block_size_pos : 0 < AES_BLOCK_SIZE := by decide

/-- The blocks that a cipher writes. -/
@[simp] theorem blocksAt_ofCipher (s : XtsState) (off : Nat) (bytes : List UInt8) :
    (ofCipher ivFromTweak c).blocksAt s off bytes
      = .ok ⟨s.out.write off (c.run s.iv bytes).1, (c.run s.iv bytes).2⟩ := rfl

/-- The stealing, when `X ++ Y` has been written and `Y` is its last block. `T` is what is left
of the input. -/
theorem stealBlock_ofCipher (X : List UInt8) {Y D T : List UInt8} (hY : Y.length = AES_BLOCK_SIZE)
    (hD : D.length = X.length + AES_BLOCK_SIZE) (hT : T.length < AES_BLOCK_SIZE) :
    (ofCipher ivFromTweak c).stealBlock ⟨buf.write 0 (X ++ Y), iv⟩ (D ++ T)
        (X.length + AES_BLOCK_SIZE)
      = .ok ⟨buf.write 0 (X ++ (c.crypt iv (T ++ Y.drop T.length) ++ Y.take T.length)),
          c.next iv⟩ := by
  obtain ⟨Y₁, Y₂, rfl, hY₁⟩ : ∃ Y₁ Y₂, Y = Y₁ ++ Y₂ ∧ Y₁.length = T.length :=
    ⟨Y.take T.length, Y.drop T.length, (take_append_drop _ _).symm, length_take_of_le (by omega)⟩
  rw [← hY₁, drop_left, take_left]
  rw [length_append] at hY
  have hblock : (T ++ Y₂).length = AES_BLOCK_SIZE := by
    rw [length_append]
    omega
  have hrest : (D ++ T).drop (X.length + AES_BLOCK_SIZE) = T := by rw [← hD, drop_left]
  have hback : X.length + AES_BLOCK_SIZE - AES_BLOCK_SIZE = X.length := Nat.add_sub_cancel _ _
  have htwo : AES_BLOCK_SIZE - Y₁.length = Y₂.length := by omega
  -- The start of the last block goes to the end of the message.
  have hstart : (buf.write 0 (X ++ (Y₁ ++ Y₂))).read X.length Y₁.length = Y₁ := by
    simpa using buf.read_write_middle 0 X Y₁ Y₂
  have hmoved : (buf.write 0 (X ++ (Y₁ ++ Y₂))).write (X.length + AES_BLOCK_SIZE) Y₁
      = buf.write 0 (X ++ ((Y₁ ++ Y₂) ++ Y₁)) := by
    have h := buf.write_write_append 0 (X ++ (Y₁ ++ Y₂)) Y₁
    rw [zero_add, length_append, length_append, hY] at h
    rw [h, append_assoc]
  -- The end of the last block completes the bytes that are left.
  have hend : (buf.write 0 (X ++ ((Y₁ ++ Y₂) ++ Y₁))).read (X.length + Y₁.length) Y₂.length
      = Y₂ := by
    simpa using buf.read_write_middle 0 (X ++ Y₁) Y₂ Y₁
  have hlast : (buf.write 0 (X ++ ((Y₁ ++ Y₂) ++ Y₁))).write X.length (c.crypt iv (T ++ Y₂))
      = buf.write 0 (X ++ (c.crypt iv (T ++ Y₂) ++ Y₁)) := by
    have h := buf.write_write_middle 0 X (Y₁ ++ Y₂) Y₁ (c.crypt iv (T ++ Y₂)) (by
      rw [c.length_crypt _ _ hblock, length_append, hY])
    rwa [zero_add] at h
  simp only [stealBlock, hrest, hback, ← hY₁, hstart, hmoved, htwo, hend,
    blocksAt_ofCipher, c.run_block aes_block_size_pos iv hblock, hlast]

variable {inData : List UInt8}

/-- A message of at least one block: full blocks, one more block, and less than a block. -/
theorem exists_cut (h : AES_BLOCK_SIZE ≤ inData.length) :
    ∃ H L T : List UInt8, AES_BLOCK_SIZE ∣ H.length ∧ L.length = AES_BLOCK_SIZE ∧
      T.length < AES_BLOCK_SIZE ∧ H ++ (L ++ T) = inData := by
  refine ⟨heads _ inData, lastBlock _ inData, rest _ inData, dvd_length_heads _ _,
    length_lastBlock h aes_block_size_pos, ?_,
    heads_append_lastBlock_append_rest h aes_block_size_pos⟩
  rw [length_rest]
  exact Nat.mod_lt _ aes_block_size_pos

/-- The lengths of data that is cut for ciphertext stealing. -/
theorem full_of_cut {H L T : List UInt8} (hH : AES_BLOCK_SIZE ∣ H.length)
    (hL : L.length = AES_BLOCK_SIZE) (hT : T.length < AES_BLOCK_SIZE) :
    (H ++ (L ++ T)).length - (H ++ (L ++ T)).length % AES_BLOCK_SIZE = H.length + AES_BLOCK_SIZE ∧
      0 < H.length + AES_BLOCK_SIZE ∧
      (H ++ (L ++ T)).take (H.length + AES_BLOCK_SIZE) = H ++ L ∧
      (H ++ (L ++ T)).length = H.length + AES_BLOCK_SIZE + T.length ∧
      (H.length + AES_BLOCK_SIZE < (H ++ (L ++ T)).length ↔ T ≠ []) := by
  have hmod : (H ++ (L ++ T)).length % AES_BLOCK_SIZE = T.length := by
    rw [← length_rest, (cut_append hH hL hT).2.2]
  have hsum : (H ++ (L ++ T)).length = H.length + AES_BLOCK_SIZE + T.length := by
    simp only [length_append, hL, add_assoc]
  refine ⟨?_, Nat.add_pos_right _ aes_block_size_pos, ?_, hsum, ?_⟩
  · rw [hmod, hsum, Nat.add_sub_cancel]
  · rw [← append_assoc, ← hL, ← length_append, take_left]
  · rw [hsum, ← length_pos_iff]
    omega

/-- A call that is not the final one. -/
theorem cryptData_not_final (encrypt : Bool) (hdvd : AES_BLOCK_SIZE ∣ inData.length) :
    (ofCipher ivFromTweak c).cryptData ⟨buf, iv⟩ inData encrypt false
      = .ok (⟨buf.write 0 (c.run iv inData).1, (c.run iv inData).2⟩, inData.length) := by
  have hmod : inData.length % AES_BLOCK_SIZE = 0 := Nat.mod_eq_zero_of_dvd hdvd
  by_cases hnil : inData = []
  · subst hnil
    simp [cryptData, bind, Except.bind]
  · have hpos : 0 < inData.length := length_pos_iff.mpr hnil
    simp [cryptData, bind, Except.bind, hmod, hpos]

/-- The final call of an encryption. -/
theorem cryptData_final_encrypt (hle : AES_BLOCK_SIZE ≤ inData.length) :
    ∃ iv', (ofCipher ivFromTweak c).cryptData ⟨buf, iv⟩ inData true true
      = .ok (⟨buf.write 0 (c.encSteal iv inData), iv'⟩, inData.length) := by
  obtain ⟨H, L, T, hH, hL, hT, rfl⟩ := exists_cut hle
  have hX : (c.run iv H).1.length = H.length := c.length_run aes_block_size_pos iv hH
  have hY : (c.crypt (c.run iv H).2 L).length = AES_BLOCK_SIZE := c.length_crypt _ _ hL
  have hrun : c.run iv (H ++ L) = ((c.run iv H).1 ++ c.crypt (c.run iv H).2 L,
      c.next (c.run iv H).2) := by
    rw [c.run_append aes_block_size_pos iv hH ⟨1, by rw [hL, mul_one]⟩,
      c.run_block aes_block_size_pos _ hL]
  have hD : (H ++ L).length = (c.run iv H).1.length + AES_BLOCK_SIZE := by
    rw [length_append, hL, hX]
  have hsteal := stealBlock_ofCipher ivFromTweak c buf (c.next (c.run iv H).2) (c.run iv H).1 hY
    hD hT
  rw [hX, append_assoc] at hsteal
  rw [encSteal, steal_cut hH hL hT]
  obtain ⟨hlen, hpos, htake, hsum, hlt⟩ := full_of_cut hH hL hT
  generalize H ++ (L ++ T) = inData at *
  by_cases hnil : T = []
  · refine ⟨c.next (c.run iv H).2, ?_⟩
    rw [encTail, stealTail, if_pos hnil]
    simp [cryptData, bind, Except.bind, hlen, hpos, htake, hrun, hlt, hnil]
    rw [hsum, hnil, length_nil, add_zero]
  · refine ⟨c.next (c.next (c.run iv H).2), ?_⟩
    rw [encTail, stealTail, if_neg hnil]
    simp [cryptData, bind, Except.bind, hlen, hpos, htake, hrun, hlt, hnil, hsteal]
    rw [hsum, Nat.add_sub_cancel_left]

/-- The final call of a decryption. -/
theorem cryptData_final_decrypt (hle : AES_BLOCK_SIZE ≤ inData.length) :
    ∃ iv', (ofCipher ivFromTweak c).cryptData ⟨buf, iv⟩ inData false true
      = .ok (⟨buf.write 0 (c.decSteal iv inData), iv'⟩, inData.length) := by
  obtain ⟨H, L, T, hH, hL, hT, rfl⟩ := exists_cut hle
  have hX : (c.run iv H).1.length = H.length := c.length_run aes_block_size_pos iv hH
  have hblock : ∀ s, (c.crypt s L).length = AES_BLOCK_SIZE := fun s => c.length_crypt s L hL
  have hrun : ∀ s, c.run s L = (c.crypt s L, c.next s) :=
    fun s => c.run_block aes_block_size_pos s hL
  have hlast : ((H ++ (L ++ T)).drop H.length).take AES_BLOCK_SIZE = L := by
    rw [drop_left, ← hL, take_left]
  have hheads : (H ++ (L ++ T)).take H.length = H := take_left
  -- The blocks before the last one, also if there are none.
  have hfirst : (if 0 < H.length then (.ok ⟨buf.write 0 (c.run iv H).1, (c.run iv H).2⟩ :
        Except (Failure × XtsState) XtsState) else .ok ⟨buf, iv⟩)
      = .ok ⟨buf.write 0 (c.run iv H).1, (c.run iv H).2⟩ := by
    split
    · rfl
    · next hzero =>
      rw [length_pos_iff, not_not] at hzero
      rw [hzero, c.run_nil, Buf.write_nil]
  have hsecond : ∀ s, (buf.write 0 (c.run iv H).1).write H.length (c.crypt s L)
      = buf.write 0 ((c.run iv H).1 ++ c.crypt s L) := by
    intro s
    simpa [hX] using buf.write_write_append 0 (c.run iv H).1 (c.crypt s L)
  -- The last full block is done twice, and the second result takes the place of the first.
  have hredo : ∀ s s', (buf.write 0 ((c.run iv H).1 ++ c.crypt s L)).write H.length (c.crypt s' L)
      = buf.write 0 ((c.run iv H).1 ++ c.crypt s' L) := by
    intro s s'
    simpa [hX] using buf.write_write_middle 0 (c.run iv H).1 (c.crypt s L) [] (c.crypt s' L)
      (by rw [hblock, hblock])
  have hD : (H ++ L).length = (c.run iv H).1.length + AES_BLOCK_SIZE := by
    rw [length_append, hL, hX]
  have hsteal := stealBlock_ofCipher ivFromTweak c buf (c.run iv H).2 (c.run iv H).1
    (hblock (c.next (c.run iv H).2)) hD hT
  rw [hX, append_assoc] at hsteal
  rw [decSteal, steal_cut hH hL hT]
  obtain ⟨hlen, -, -, hsum, hlt⟩ := full_of_cut hH hL hT
  generalize H ++ (L ++ T) = inData at *
  by_cases hnil : T = []
  · refine ⟨c.next (c.run iv H).2, ?_⟩
    rw [decTail, stealTail, if_pos hnil]
    simp [cryptData, bind, Except.bind, hlen, hheads, hfirst, hlast, hrun, hsecond,
      hlt, hnil]
    rw [hsum, hnil, length_nil, add_zero]
  · refine ⟨c.next (c.run iv H).2, ?_⟩
    rw [decTail, stealTail, if_neg hnil]
    simp [cryptData, bind, Except.bind, hlen, hheads, hfirst, hlast, hrun, hsecond,
      hredo, hlt, hnil, hsteal]
    rw [hsum, Nat.add_sub_cancel_left]

/-! ### One call -/

/-- A message of at least one block that goes through the cipher in one direction. -/
def xtsMessage (c : BlockCipher UInt8 AesBlock AES_BLOCK_SIZE) (encrypt : Bool) :
    AesBlock → List UInt8 → List UInt8 :=
  c.steal (if encrypt then c.encTail else c.decTail)

/-- The message keeps its length. -/
theorem length_xtsMessage (encrypt : Bool) (hle : AES_BLOCK_SIZE ≤ inData.length) :
    (xtsMessage c encrypt iv inData).length = inData.length := by
  refine BlockCipher.length_steal aes_block_size_pos ?_ hle
  intro s last ys hlast hys
  cases encrypt <;> exact c.length_stealTail _ _ _ hlast hys

section
variable {outDataLen : Nat} (tweak : AesBlock) (encrypt initial : Bool)

/-- The initial value comes from the tweak in the first call only. -/
theorem ivFromTweak_ofCipher :
    (if initial then (ofCipher ivFromTweak c).ivFromTweak tweak else .ok iv)
      = .ok (if initial then ivFromTweak tweak else iv) := by
  cases initial <;> rfl

/-- A call that is not the last one encrypts its blocks. -/
theorem aesXtsCipher_not_final (hdvd : AES_BLOCK_SIZE ∣ inData.length)
    (hroom : inData.length ≤ outDataLen) :
    aesXtsCipher (.ofCipher ivFromTweak c) inData (some buf) outDataLen tweak encrypt initial
        false iv
      = ⟨.ok, some (buf.write 0 (c.run (if initial then ivFromTweak tweak else iv) inData).1),
          inData.length, (c.run (if initial then ivFromTweak tweak else iv) inData).2⟩ := by
  have hmod : inData.length % AES_BLOCK_SIZE = 0 := Nat.mod_eq_zero_of_dvd hdvd
  simp [aesXtsCipher, hmod, ivFromTweak_ofCipher, hroom.not_gt,
    cryptData_not_final _ _ _ _ encrypt hdvd]

/-- The last call encrypts the message, with ciphertext stealing. -/
theorem aesXtsCipher_final (hle : AES_BLOCK_SIZE ≤ inData.length)
    (hroom : inData.length ≤ outDataLen) :
    ∃ iv', aesXtsCipher (.ofCipher ivFromTweak c) inData (some buf) outDataLen tweak encrypt
        initial true iv
      = ⟨.ok, some (buf.write 0
          (xtsMessage c encrypt (if initial then ivFromTweak tweak else iv) inData)),
          inData.length, iv'⟩ := by
  have hcrypt : ∃ iv', (ofCipher ivFromTweak c).cryptData
        ⟨buf, if initial then ivFromTweak tweak else iv⟩ inData encrypt true
      = .ok (⟨buf.write 0 (xtsMessage c encrypt (if initial then ivFromTweak tweak else iv)
          inData), iv'⟩, inData.length) := by
    cases encrypt with
    | true => exact cryptData_final_encrypt _ _ _ _ hle
    | false => exact cryptData_final_decrypt _ _ _ _ hle
  obtain ⟨iv', hcrypt⟩ := hcrypt
  exact ⟨iv', by
    simp [aesXtsCipher, hle.not_gt, ivFromTweak_ofCipher, hroom.not_gt, hcrypt]⟩

end

end

/-! ### A message in several calls -/

/-- The bytes that a result reports. -/
def reported (out : Option Buf) (outDataLen : Nat) : List UInt8 :=
  match out with
  | some buf => buf.read 0 outDataLen
  | none     => []

/-- What was written to the start of a buffer is reported. -/
theorem reported_write (buf : Buf) (bytes : List UInt8) :
    reported (some (buf.write 0 bytes)) bytes.length = bytes :=
  buf.read_write 0 bytes

/-- A call of `aes_xts_cipher`: the input, the memory at `out_data` and the declared size. -/
structure XtsCall where
  inData : List UInt8
  out : Buf
  outDataLen : Nat

/-- The input of a sequence of calls. -/
def inputs (calls : List XtsCall) : List UInt8 := calls.flatMap (·.inData)

/-- Calls that are not final, and a final one. The first call of all is the initial one. -/
def xtsCalls (cb : XtsCallbacks) (tweak : AesBlock) (encrypt : Bool) (last : XtsCall) :
    Bool → AesBlock → List XtsCall → List CryptResult
  | initial, iv, []      =>
    [aesXtsCipher cb last.inData (some last.out) last.outDataLen tweak encrypt initial true iv]
  | initial, iv, p :: ps =>
    let r := aesXtsCipher cb p.inData (some p.out) p.outDataLen tweak encrypt initial false iv
    r :: xtsCalls cb tweak encrypt last false r.iv ps

/-- The output of a sequence of calls. -/
def outputs (rs : List CryptResult) : List UInt8 := rs.flatMap fun r => reported r.out r.outDataLen

/-- A call succeeds and reports as many bytes as it has got. -/
def Succeeds (call : XtsCall) (r : CryptResult) : Prop :=
  r.rc = .ok ∧ r.outDataLen = call.inData.length

/-- What the calls of `aes_xts_cipher` for a message may be: full blocks in all calls but the
final one, at least one block in the final one, and room for the output. -/
structure WellFormedCalls (ps : List XtsCall) (last : XtsCall) : Prop where
  blocks : ∀ p ∈ ps, AES_BLOCK_SIZE ∣ p.inData.length
  last_block : AES_BLOCK_SIZE ≤ last.inData.length
  room : ∀ p ∈ ps, p.inData.length ≤ p.outDataLen
  last_room : last.inData.length ≤ last.outDataLen

/-- The calls do together what one call on the whole message does. -/
theorem xtsCalls_ofCipher (ivFromTweak : AesBlock → AesBlock)
    (c : BlockCipher UInt8 AesBlock AES_BLOCK_SIZE) (tweak : AesBlock) (encrypt : Bool)
    {ps : List XtsCall} {last : XtsCall} (h : WellFormedCalls ps last) (initial : Bool)
    (iv : AesBlock) :
    List.Forall₂ Succeeds (ps ++ [last])
        (xtsCalls (.ofCipher ivFromTweak c) tweak encrypt last initial iv ps) ∧
      outputs (xtsCalls (.ofCipher ivFromTweak c) tweak encrypt last initial iv ps)
        = xtsMessage c encrypt (if initial then ivFromTweak tweak else iv)
            (inputs (ps ++ [last])) := by
  induction ps generalizing initial iv with
  | nil =>
    obtain ⟨iv', hcall⟩ := aesXtsCipher_final ivFromTweak c last.out iv tweak encrypt initial
      h.last_block h.last_room
    have hreported := reported_write last.out
      (xtsMessage c encrypt (if initial then ivFromTweak tweak else iv) last.inData)
    rw [length_xtsMessage _ _ encrypt h.last_block] at hreported
    simp [xtsCalls, hcall, Succeeds, outputs, inputs, hreported]
  | cons p ps ih =>
    have hps : WellFormedCalls ps last :=
      ⟨fun q hq => h.blocks q (List.mem_cons_of_mem _ hq), h.last_block,
        fun q hq => h.room q (List.mem_cons_of_mem _ hq), h.last_room⟩
    have hp := h.blocks p List.mem_cons_self
    have hcall := aesXtsCipher_not_final ivFromTweak c p.out iv tweak encrypt initial hp
      (h.room p List.mem_cons_self)
    -- After the first call the chain goes on from the IV that it returned.
    generalize (if initial then ivFromTweak tweak else iv) = iv₀ at *
    obtain ⟨hok, hout⟩ := ih hps false (c.run iv₀ p.inData).2
    have hreported := reported_write p.out (c.run iv₀ p.inData).1
    rw [c.length_run aes_block_size_pos _ hp] at hreported
    -- The last call has a block at least, so the stealing is left to it.
    have hlong : AES_BLOCK_SIZE ≤ (inputs (ps ++ [last])).length := by
      have := h.last_block
      simp only [inputs, List.flatMap_append, List.flatMap_singleton, List.length_append]
      omega
    simp only [xtsCalls, hcall]
    refine ⟨.cons ⟨rfl, rfl⟩ hok, ?_⟩
    show reported _ _ ++ outputs _ = xtsMessage c encrypt iv₀ (p.inData ++ inputs (ps ++ [last]))
    rw [hout, hreported, xtsMessage, BlockCipher.steal_append aes_block_size_pos hp hlong]
    rfl

/-- AES-XTS is invertible. The message may be cut into calls in one way for the encryption and
in another way for the decryption. -/
theorem aes_xts_decrypt_encrypt {enc dec : BlockCipher UInt8 AesBlock AES_BLOCK_SIZE}
    (hundoes : dec.Undoes enc) (ivFromTweak : AesBlock → AesBlock) (tweak iv iv' : AesBlock)
    (ps qs : List XtsCall) (last last' : XtsCall) (hps : WellFormedCalls ps last)
    (hqs : WellFormedCalls qs last')
    (hinput : inputs (qs ++ [last'])
      = outputs (xtsCalls (.ofCipher ivFromTweak enc) tweak true last true iv ps)) :
    List.Forall₂ Succeeds (ps ++ [last])
        (xtsCalls (.ofCipher ivFromTweak enc) tweak true last true iv ps) ∧
      List.Forall₂ Succeeds (qs ++ [last'])
        (xtsCalls (.ofCipher ivFromTweak dec) tweak false last' true iv' qs) ∧
      outputs (xtsCalls (.ofCipher ivFromTweak dec) tweak false last' true iv' qs)
        = inputs (ps ++ [last]) := by
  obtain ⟨hencOk, hencOut⟩ := xtsCalls_ofCipher ivFromTweak enc tweak true hps true iv
  obtain ⟨hdecOk, hdecOut⟩ := xtsCalls_ofCipher ivFromTweak dec tweak false hqs true iv'
  have hlong : AES_BLOCK_SIZE ≤ (inputs (ps ++ [last])).length := by
    have := hps.last_block
    simp only [inputs, List.flatMap_append, List.flatMap_singleton, List.length_append]
    omega
  refine ⟨hencOk, hdecOk, ?_⟩
  rw [hdecOut, hinput, hencOut]
  exact hundoes.decSteal_encSteal aes_block_size_pos hlong

/-- A cipher that adds or subtracts the first byte of the state. -/
def shiftCipher (add : Bool) : BlockCipher UInt8 AesBlock AES_BLOCK_SIZE where
  crypt s b := b.map fun x => if add then x + s[0] else x - s[0]
  next s := s.map (· + 1)
  length_crypt _ _ hb := by rw [List.length_map, hb]

/-- The cipher of the concrete runs is invertible. -/
theorem shiftCipher_undoes : (shiftCipher false).Undoes (shiftCipher true) := by
  refine ⟨rfl, fun s b _ => ?_⟩
  simp [shiftCipher, Function.comp_def]

/-- 33 bytes: encrypted in two calls and decrypted in one. -/
theorem aes_xts_decrypt_encrypt_33_bytes :
    let zero : AesBlock := Vector.replicate _ 0
    let first : XtsCall := ⟨List.replicate 16 1, fun _ => 0, 16⟩
    let second : XtsCall := ⟨List.replicate 16 2 ++ [3], fun _ => 0, 17⟩
    let cipher := outputs (xtsCalls (.ofCipher id (shiftCipher true)) zero true second true zero
      [first])
    outputs (xtsCalls (.ofCipher id (shiftCipher false)) zero false ⟨cipher, fun _ => 0, 33⟩ true
      zero []) = inputs [first, second] := by
  intro zero first second cipher
  have henc : WellFormedCalls [first] second := ⟨by decide, by decide, by decide, by decide⟩
  have hdec : WellFormedCalls [] ⟨cipher, fun _ => 0, 33⟩ :=
    ⟨nofun, by decide +kernel, nofun, by decide +kernel⟩
  exact (aes_xts_decrypt_encrypt shiftCipher_undoes id zero zero zero [first] [] second _ henc
    hdec (List.append_nil _)).2.2

end OpenCryptoki.Proofs.Common
