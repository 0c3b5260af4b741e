import OpenCryptoki.Lib.BlockFold
import OpenCryptoki.Common.Mac

/-!
# `OpenCryptoki.Proofs.Common.Mac`: what a MAC context has absorbed, and what is accepted

The token's MAC is an iterated function: with the key of the operation it runs some step
over the blocks that it is given (`Iterates`). `cbcMac` is that step, run over the message
padded with zeros, from a chaining value of zeros.

`Absorbed step context msg` states what a context knows of a message: the chaining value is
that after the full blocks of `msg`, and the kept bytes are the rest. Each part keeps it
(`macUpdate_absorbed`), so it does not matter how the message is cut into parts.

The functions that verify then come to a comparison with `cbcMac step msg`. The length of
the signature is compared with the length of the MAC in front of it, except in the final
function when no bytes are kept. So an operation is exact if the message came in one call, or
if its length is not a multiple of the block size, and only then (`macVerify_exact_iff`). In
the other case a signature of any length up to a block is compared with as many bytes of the
MAC, and a longer one with the bytes behind it.
-/

set_option autoImplicit false

namespace OpenCryptoki.Proofs.Common

open Lib OpenCryptoki.Common

/-- The MAC of a message: `step` over its blocks, the last one filled up with zeros. -/
def cbcMac (bs : Nat) (step : Vector UInt8 bs → List UInt8 → Vector UInt8 bs)
    (msg : List UInt8) : Vector UInt8 bs :=
  foldBlocks bs step (Vector.replicate bs 0) (pad bs 0 msg)

section
variable {K : Type} {bs : Nat} {tok : MacToken K bs} {key : Nat}
  {step : Vector UInt8 bs → List UInt8 → Vector UInt8 bs}

/-- The key is there, and the MAC of the token with this key is `step` over the blocks. -/
def Iterates (tok : MacToken K bs) (key : Nat)
    (step : Vector UInt8 bs → List UInt8 → Vector UInt8 bs) : Prop :=
  ∃ obj, tok.findInMap key = .ok obj ∧
    ∀ data iv, bs ∣ data.length → tok.tMac obj.value data iv = (none, foldBlocks bs step iv data)

/-- The context has absorbed the message. -/
structure Absorbed (step : Vector UInt8 bs → List UInt8 → Vector UInt8 bs)
    (context : DataContext bs) (msg : List UInt8) : Prop where
  len : context.len.1 = msg.length % bs
  data : context.data.read 0 context.len = rest bs msg
  iv : context.iv = foldBlocks bs step (Vector.replicate bs 0) (whole bs msg)

/-- Nothing has been absorbed yet. -/
theorem absorbed_zero [NeZero bs] : Absorbed step (DataContext.zero bs) [] where
  len := by rw [List.length_nil, Nat.zero_mod]; rfl
  data := by
    show (DataContext.zero bs).data.read 0 (0 : Fin bs) = _
    rw [rest, List.drop_nil, Fin.val_zero, Buf.read_zero]
  iv := by rw [whole, List.take_nil, foldBlocks_nil]; rfl

variable {n : Nat} {inData : List UInt8}

/-- The bytes that are kept, which are copied only if there are any. -/
theorem read_ite_write {b : Buf} {tail : List UInt8} (h : tail.length = n) :
    (if n ≠ 0 then b.write 0 tail else b).read 0 n = tail := by
  split
  · have hread := Buf.read_write_append b 0 tail
    rwa [zero_add, Buf.read_zero, List.nil_append, h] at hread
  · rename_i hzero
    rw [Decidable.not_not.mp hzero] at h ⊢
    rw [List.length_eq_zero_iff.mp h, Buf.read_zero]

variable {context : DataContext bs} {msg : List UInt8}

/-- A part extends what the context has absorbed. -/
theorem macUpdate_absorbed (htok : Iterates tok key step) (habs : Absorbed step context msg)
    (hfits : inData.length + bs ≤ 2 ^ 64) :
    ∃ context', macUpdate tok key context inData = (.ok, context') ∧
      Absorbed step context' (msg ++ inData) := by
  obtain ⟨obj, hkey, hmac⟩ := htok
  have hpos : 0 < bs := context.len.pos
  have hlen := habs.len
  -- The kept bytes and the new ones, of which the full blocks go to the token.
  have hread := habs.data
  have htotal : (rest bs msg ++ inData).length = context.len + inData.length := by
    rw [List.length_append, length_rest, hlen]
  have hmod : (msg ++ inData).length % bs = (context.len + inData.length) % bs := by
    rw [List.length_append, hlen, Nat.mod_add_mod]
  rw [macUpdate, if_neg (by rw [ULONG_MAX]; omega)]
  dsimp only
  split
  · -- Less than a block: the bytes are kept behind those that are there.
    rename_i hshort
    have hless : (rest bs msg ++ inData).length < bs := htotal ▸ hshort
    refine ⟨_, rfl, ?_, ?_, ?_⟩
    · rw [hmod, Nat.mod_eq_of_lt hshort]
    · rw [Buf.read_write_append, hread, rest_append, rest_of_lt hless]
    · rw [foldBlocks_whole_append hpos, whole_of_lt hless, foldBlocks_nil]
      exact habs.iv
  · have hkept : (rest bs msg).length < bs := by rw [length_rest]; exact Nat.mod_lt _ hpos
    have hblock : bs ≤ (rest bs msg ++ inData).length := by omega
    have hwhole := whole_of_kept hkept hblock
    have hrest := rest_of_kept hkept hblock
    rw [htotal] at hrest
    rw [htotal, length_rest, ← hlen] at hwhole
    rw [hkey]
    dsimp only
    rw [hread, ← hwhole, hmac _ _ (dvd_length_whole _ _)]
    refine ⟨_, rfl, hmod.symm, ?_, ?_⟩
    · have htail := length_rest bs (rest bs msg ++ inData)
      rw [htotal, hrest] at htail
      rw [rest_append, hrest]
      exact read_ite_write htail
    · show foldBlocks bs step context.iv _ = _
      rw [foldBlocks_whole_append hpos step _ msg inData, habs.iv]

/-! ### The final functions -/

/-- Without kept bytes the chaining value is the MAC. -/
theorem Absorbed.iv_eq (habs : Absorbed step context msg) (h : bs ∣ msg.length) :
    context.iv = cbcMac bs step msg := by
  rw [habs.iv, whole_of_dvd h, cbcMac, pad_of_dvd h]

/-- With kept bytes the MAC is one step away, with the padded block. -/
theorem Absorbed.foldBlocks_padded (habs : Absorbed step context msg) (h : ¬ bs ∣ msg.length) :
    (context.padded.data.read 0 bs).length = bs ∧
      foldBlocks bs step context.iv (context.padded.data.read 0 bs) = cbcMac bs step msg := by
  have hpos : 0 < bs := context.len.pos
  have hblock := Buf.length_read context.padded.data 0 bs
  refine ⟨hblock, ?_⟩
  have hread := Buf.read_write_append context.data context.len
    (List.replicate (bs - context.len) 0)
  rw [List.length_replicate, Nat.add_sub_cancel' context.len.isLt.le, habs.data,
    habs.len] at hread
  rw [foldBlocks_block hpos hblock, cbcMac, foldBlocks_pad_of_not_dvd hpos h, ← habs.iv]
  congr 1
  rw [DataContext.padded, habs.len]
  exact hread

/-- The return value of a comparison behind a check of the length. -/
def checkedRv (param : Option (MacLen bs)) (mac : Vector UInt8 bs) (signature : List UInt8) :
    Option CkRv :=
  if signature.length = macLenOf param then (compareMac signature mac).map Prod.fst
  else some .signatureLenRange

/-- The final function checks the length only if there are kept bytes. -/
theorem macVerifyFinal_rv (htok : Iterates tok key step) (habs : Absorbed step context msg)
    (param : Option (MacLen bs)) (signature : List UInt8) :
    (macVerifyFinal tok key param context signature).map Prod.fst
      = if bs ∣ msg.length then (compareMac signature (cbcMac bs step msg)).map Prod.fst
        else checkedRv param (cbcMac bs step msg) signature := by
  have hlen := habs.len
  by_cases hdvd : bs ∣ msg.length
  · rw [if_pos hdvd, macVerifyFinal, if_neg (by omega), habs.iv_eq hdvd]
  · rw [if_neg hdvd, macVerifyFinal, if_pos (by omega), checkedRv]
    by_cases hsig : signature.length = macLenOf param
    · obtain ⟨obj, hkey, hmac⟩ := htok
      obtain ⟨hblock, hpadded⟩ := habs.foldBlocks_padded hdvd
      rw [if_neg (not_not_intro hsig), if_pos hsig, hkey]
      dsimp only
      rw [hmac _ _ ⟨1, by rw [hblock, mul_one]⟩, hpadded]
    · rw [if_pos hsig, if_neg hsig]
      rfl

/-- The single-part function checks the length on both of its paths. -/
theorem macVerify_rv [NeZero bs] (htok : Iterates tok key step) (param : Option (MacLen bs))
    (hfits : inData.length + bs ≤ 2 ^ 64) (signature : List UInt8) :
    (macVerify tok key param (.zero bs) inData signature).map Prod.fst
      = checkedRv param (cbcMac bs step inData) signature := by
  rw [macVerify]
  split_ifs with hmod hsig
  · obtain ⟨context, hupdate, habs⟩ := macUpdate_absorbed htok absorbed_zero hfits
    rw [hupdate]
    rw [macVerifyFinal_rv htok habs, List.nil_append,
      if_neg fun h => hmod (Nat.mod_eq_zero_of_dvd h)]
  · rw [checkedRv, if_neg hsig]
    rfl
  · obtain ⟨obj, hkey, hmac⟩ := htok
    have hdvd : bs ∣ inData.length := Nat.dvd_of_mod_eq_zero (Decidable.not_not.mp hmod)
    rw [checkedRv, if_pos (Decidable.not_not.mp hsig), hkey]
    dsimp only
    rw [hmac _ _ hdvd, cbcMac, pad_of_dvd hdvd]
    rfl

/-! ### Exact acceptance -/

variable (mac : Vector UInt8 bs)

/-- A part of the MAC has its length. -/
theorem length_take_toList (h : n ≤ bs) : (mac.toList.take n).length = n := by
  rw [List.length_take, Vector.length_toList, min_eq_left h]

variable (param : Option (MacLen bs))

/-- The MAC is at most a block. -/
theorem macLenOf_le : macLenOf param ≤ bs := by
  cases param with
  | none => exact Nat.div_le_self bs 2
  | some n => exact n.2.2

/-- A comparison within the chaining value. -/
theorem compareMac_rv {signature : List UInt8} (h : signature.length ≤ bs) :
    (compareMac signature mac).map Prod.fst
      = some (if signature = mac.toList.take signature.length then .ok else .signatureInvalid) := by
  rw [compareMac, cryptoMemcmp, if_pos h]
  by_cases heq : signature = mac.toList.take signature.length
  · rw [if_pos heq, beq_iff_eq.mpr heq]
    rfl
  · rw [if_neg heq, beq_eq_false_iff_ne.mpr heq]
    rfl

/-- The return value accepts exactly the first bytes of the MAC, and it is one: nothing
behind the MAC is read. -/
def ExactRv (param : Option (MacLen bs)) (mac : Vector UInt8 bs) (signature : List UInt8)
    (rv : Option CkRv) : Prop :=
  ∃ rc, rv = some rc ∧ (rc = .ok ↔ signature.length = macLenOf param ∧
      signature = mac.toList.take (macLenOf param))

/-- The comparison behind the length check is exact. -/
theorem exactRv_checkedRv (signature : List UInt8) :
    ExactRv param mac signature (checkedRv param mac signature) := by
  rw [checkedRv]
  split_ifs with hlen
  · rw [compareMac_rv mac (hlen ▸ macLenOf_le param)]
    refine ⟨_, rfl, ?_⟩
    rw [← hlen]
    split_ifs with heq
    · exact ⟨fun _ => ⟨rfl, heq⟩, fun _ => rfl⟩
    · exact ⟨nofun, fun h => absurd h.2 heq⟩
  · exact ⟨_, rfl, nofun, fun h => absurd h.1 hlen⟩

end

/-! ### The verify manager -/

section
variable {K D : Type} {tok : Token K D}

/-- If the token does not fail, `des3_mac_verify` is the DES3 form of `aes_mac_verify`. -/
theorem des3MacVerify_eq_macVerify {key : Nat}
    {step : Vector UInt8 DES_BLOCK_SIZE → List UInt8 → Vector UInt8 DES_BLOCK_SIZE}
    (htok : Iterates tok.des3 key step) (param : Option (MacLen DES_BLOCK_SIZE))
    (context : DataContext DES_BLOCK_SIZE) (inData signature : List UInt8) :
    des3MacVerify tok key param context inData signature
      = macVerify tok.des3 key param context inData signature := by
  obtain ⟨obj, hkey, hmac⟩ := htok
  rw [des3MacVerify, macVerify]
  by_cases hmod : inData.length % DES_BLOCK_SIZE ≠ 0
  · have hupdate : des3MacVerifyUpdate tok key context inData
        = macUpdate tok.des3 key context inData := rfl
    rw [if_pos hmod, if_pos hmod, hupdate]
    rcases macUpdate tok.des3 key context inData with ⟨rc, context'⟩
    cases rc <;> rfl
  · have hfind : tok.findInMap key = .ok obj := hkey
    have hstep := hmac inData context.iv (Nat.dvd_of_mod_eq_zero (Decidable.not_not.mp hmod))
    have htdes : tok.tTdesMac obj.value inData context.iv = _ := hstep
    rw [if_neg hmod, if_neg hmod]
    simp only [hfind, hkey, hstep, htdes]

variable {m : MacMechanism} {key : Nat}
  {step : Vector UInt8 m.blockSize → List UInt8 → Vector UInt8 m.blockSize}

/-- Every mechanism is updated in the same way. -/
theorem verifyUpdateSwitch_eq (tok : Token K D) (m : MacMechanism) :
    verifyUpdateSwitch tok m = macUpdate (tok.mac m) := by
  cases m <;> rfl

/-- Every mechanism is verified in the same way. -/
theorem verifySwitch_eq (htok : Iterates (tok.mac m) key step)
    (param : Option (MacLen m.blockSize)) (context : DataContext m.blockSize)
    (inData signature : List UInt8) :
    verifySwitch tok m key param context inData signature
      = macVerify (tok.mac m) key param context inData signature := by
  cases m with
  | aesMac | aesMacGeneral => rfl
  | des3Mac | des3MacGeneral => exact des3MacVerify_eq_macVerify htok param context inData signature

/-- The context that `verify_mgr_init` sets up. -/
def freshMacContext (key : Nat) (param : Option (MacLen m.blockSize)) (ulParameterLen : Nat) :
    MacContext m where
  key := key
  param := param
  ulParameterLen := ulParameterLen
  context := .zero m.blockSize
  multi := false
  multiInit := false
  recover := false
  authRequired := false

variable {ctx : MacContext m}

/-- The init function returns a fresh context. -/
theorem verifyMgrInit_ok {mech : CkMechanism (.mac m)}
    (h : verifyMgrInit tok m mech false key true = .ok ctx) :
    ctx = freshMacContext key ctx.param mech.ulParameterLen := by
  obtain ⟨_, _, h⟩ := bind_eq_ok.mp h
  obtain ⟨_, _, h⟩ := bind_eq_ok.mp h
  obtain ⟨_, _, h⟩ := bind_eq_ok.mp h
  obtain ⟨_, _, h⟩ := bind_eq_ok.mp h
  obtain ⟨_, _, h⟩ := bind_eq_ok.mp h
  rw [← Except.ok.inj h]
  rfl

/-- A part of a multi-part operation. -/
theorem verifyMgrVerifyUpdate_absorbed (ctx : MacContext m) {msg inData : List UInt8}
    (htok : Iterates (tok.mac m) ctx.key step) (habs : Absorbed step ctx.context msg)
    (hfits : inData.length + m.blockSize ≤ 2 ^ 64) (hrecover : ctx.recover = false)
    (hmulti : ctx.multiInit = true → ctx.multi = true) :
    ∃ context, verifyMgrVerifyUpdate tok ctx inData
        = (.ok, { ctx with context := context, multi := true, multiInit := true }) ∧
      Absorbed step context (msg ++ inData) := by
  obtain ⟨context, hupdate, habs'⟩ := macUpdate_absorbed htok habs hfits
  refine ⟨context, ?_, habs'⟩
  obtain ⟨_, _, _, _, multi, multiInit, recover, _⟩ := ctx
  -- The flags are set by the first part, and are as set at any later one.
  cases hrecover
  cases multiInit with
  | false => simp [verifyMgrVerifyUpdate, verifyUpdateSwitch_eq, hupdate]
  | true =>
    cases hmulti rfl
    simp [verifyMgrVerifyUpdate, verifyUpdateSwitch_eq, hupdate]

/-- The parts after the first one. -/
theorem verifyUpdates_absorbed (ctx : MacContext m) (htok : Iterates (tok.mac m) ctx.key step)
    (hrecover : ctx.recover = false) (hinit : ctx.multiInit = true) (hmulti : ctx.multi = true)
    {ps : List (List UInt8)} {msg : List UInt8} (habs : Absorbed step ctx.context msg)
    (hfits : ∀ p ∈ ps, p.length + m.blockSize ≤ 2 ^ 64) :
    ∃ context, verifyUpdates tok ctx ps
        = (.ok, { ctx with context := context, multi := true, multiInit := true }) ∧
      Absorbed step context (msg ++ ps.flatten) := by
  induction ps generalizing ctx msg with
  | nil =>
    refine ⟨ctx.context, ?_, ?_⟩
    · obtain ⟨_, _, _, _, _, _, _, _⟩ := ctx
      cases hinit
      cases hmulti
      rfl
    · rw [List.flatten_nil, List.append_nil]
      exact habs
  | cons p ps ih =>
    obtain ⟨context, hupdate, habs'⟩ := verifyMgrVerifyUpdate_absorbed ctx htok habs
      (hfits p List.mem_cons_self) hrecover fun _ => hmulti
    obtain ⟨context', hrun, habs''⟩ :=
      ih { ctx with context := context, multi := true, multiInit := true } htok hrecover rfl rfl
        habs' fun q hq => hfits q (List.mem_cons_of_mem p hq)
    refine ⟨context', ?_, ?_⟩
    · rw [verifyUpdates, hupdate]
      exact hrun
    · rw [List.flatten_cons, ← List.append_assoc]
      exact habs''

/-- A message of at least one part: the context before the final call. -/
theorem verifyUpdates_fresh (param : Option (MacLen m.blockSize)) (ulParameterLen : Nat)
    (htok : Iterates (tok.mac m) key step) {p : List UInt8} {ps : List (List UInt8)}
    (hfits : ∀ q ∈ p :: ps, q.length + m.blockSize ≤ 2 ^ 64) :
    ∃ context, verifyUpdates tok (freshMacContext key param ulParameterLen) (p :: ps)
        = (.ok, { freshMacContext key param ulParameterLen with
            context := context, multi := true, multiInit := true }) ∧
      Absorbed step context (p :: ps).flatten := by
  obtain ⟨context, hupdate, habs⟩ := verifyMgrVerifyUpdate_absorbed
    (freshMacContext key param ulParameterLen) htok absorbed_zero (hfits p List.mem_cons_self) rfl
    nofun
  obtain ⟨context', hrun, habs'⟩ := verifyUpdates_absorbed
    { freshMacContext key param ulParameterLen with
      context := context, multi := true, multiInit := true }
    htok rfl rfl rfl habs fun q hq => hfits q (List.mem_cons_of_mem p hq)
  refine ⟨context', ?_, habs'⟩
  rw [verifyUpdates, hupdate]
  exact hrun

/-- The length of a part does not wrap around. -/
theorem fits_blockSize (m : MacMechanism) {n : Nat} (h : n < 2 ^ 63) :
    n + m.blockSize ≤ 2 ^ 64 := by
  have hle : m.blockSize ≤ 16 := by cases m <;> decide
  omega

section
variable {param : Option (MacLen m.blockSize)} {ulParameterLen : Nat}

/-- A message in parts is compared without the check if the parts are full blocks. -/
theorem verifyReturns_parts (htok : Iterates (tok.mac m) key step) {p : List UInt8}
    {ps : List (List UInt8)} (hfits : ∀ q ∈ p :: ps, q.length < 2 ^ 63)
    (signature : List UInt8) :
    verifyReturns tok (freshMacContext key param ulParameterLen) signature (.parts (p :: ps))
      = if m.blockSize ∣ (p :: ps).flatten.length then
          (compareMac signature (cbcMac m.blockSize step (p :: ps).flatten)).map Prod.fst
        else checkedRv param (cbcMac m.blockSize step (p :: ps).flatten) signature := by
  obtain ⟨context, hrun, habs⟩ := verifyUpdates_fresh param ulParameterLen htok
    fun q hq => fits_blockSize m (hfits q hq)
  have heq : verifyFinalSwitch tok m = macVerifyFinal (tok.mac m) := by
    cases m <;> rfl
  rw [← macVerifyFinal_rv htok habs, ← heq, verifyReturns, hrun]
  rfl

end

/-- The MAC is not empty. -/
theorem macLenOf_pos (param : Option (MacLen m.blockSize)) : 0 < macLenOf param := by
  cases param with
  | none => cases m <;> decide
  | some n => exact n.2.1

/-- A bare comparison accepts the empty signature. -/
theorem not_exactRv_compareMac (param : Option (MacLen m.blockSize))
    (mac : Vector UInt8 m.blockSize) :
    ¬ ExactRv param mac [] ((compareMac [] mac).map Prod.fst) := by
  rintro ⟨rc, hrc, hiff⟩
  rw [compareMac_rv mac zero_le] at hrc
  have hok : rc = .ok := (Option.some.inj hrc).symm
  have hpos := macLenOf_pos param
  rw [← (hiff.mp hok).1] at hpos
  exact absurd hpos (lt_irrefl 0)

/-- Let the token's MAC iterate `step`, and let `verify_mgr_init` accept the mechanism. Then
verification is exact for every signature if and only if the message comes in one call, or in
parts whose total length is not a multiple of the block size. -/
theorem macVerify_exact_iff {mech : CkMechanism (.mac m)} {ctx : MacContext m}
    (hinit : verifyMgrInit tok m mech false key true = .ok ctx)
    (htok : Iterates (tok.mac m) key step) {input : Input} (hfits : input.Fits) :
    (∀ signature, ExactRv ctx.param (cbcMac m.blockSize step input.message) signature
        (verifyReturns tok ctx signature input)) ↔
      input.isSingle ∨ ¬ m.blockSize ∣ input.message.length := by
  rw [verifyMgrInit_ok hinit]
  cases input with
  | single data =>
    refine iff_of_true (fun signature => ?_) (.inl rfl)
    -- A message in one call is compared behind a check of the length.
    have hrv : verifyReturns tok (freshMacContext key ctx.param mech.ulParameterLen)
        signature (.single data)
          = checkedRv ctx.param (cbcMac m.blockSize step data) signature := by
      rw [← macVerify_rv htok ctx.param (fits_blockSize m hfits), ← verifySwitch_eq htok]
      rfl
    rw [hrv]
    exact exactRv_checkedRv _ _ _
  | parts ps =>
    cases ps with
    | nil =>
      -- Without a part the final function returns an error, also for the right signature.
      refine iff_of_false (fun hexact => ?_) fun h => h.elim nofun fun h => h (Nat.dvd_zero _)
      obtain ⟨rc, hrc, hiff⟩ := hexact ((cbcMac m.blockSize step []).toList.take
        (macLenOf ctx.param))
      cases hrc
      exact nomatch hiff.mpr ⟨length_take_toList _ (macLenOf_le _), rfl⟩
    | cons p ps =>
      by_cases hdvd : m.blockSize ∣ (p :: ps).flatten.length
      · refine iff_of_false (fun hexact => ?_) fun h => h.elim nofun fun h => h hdvd
        have hempty := hexact []
        rw [verifyReturns_parts htok hfits, if_pos hdvd] at hempty
        exact not_exactRv_compareMac _ _ hempty
      · refine iff_of_true (fun signature => ?_) (.inr hdvd)
        rw [verifyReturns_parts htok hfits, if_neg hdvd]
        exact exactRv_checkedRv _ _ _

end

/-! ### A token with a transparent MAC -/

/-- The step of a CBC-MAC whose block cipher is the identity. -/
def xorStep (bs : Nat) (iv : Vector UInt8 bs) (block : List UInt8) : Vector UInt8 bs :=
  Vector.ofFn fun i => iv[i] ^^^ block.getD i 0

/-- A key that may sign and verify with every mechanism, with a modulus of 128 bytes. -/
def plainKey : KeyObject Unit where
  cls := some CKO_PRIVATE_KEY
  keyType := some CKK_RSA
  sign := some true
  signRecover := some true
  verify := some true
  verifyRecover := some true
  isPrivate := some false
  alwaysAuthenticate := none
  modulus := some 128
  allowedMechanisms := []
  value := ()

/-- A token on which nothing fails, with one key under every handle, that iterates the given
steps and keeps the data of a digest. -/
def plainToken
    (aes : Vector UInt8 AES_BLOCK_SIZE → List UInt8 → Vector UInt8 AES_BLOCK_SIZE)
    (des : Vector UInt8 DES_BLOCK_SIZE → List UInt8 → Vector UInt8 DES_BLOCK_SIZE)
    (digest : DigestMechanism → List UInt8 → List UInt8) : Token Unit (List UInt8) where
  initialized := true
  pinExpired := false
  validMech := fun _ => true
  isMechAllowed := fun _ _ _ => .ok ()
  findInMap := fun _ => .ok plainKey
  tAesMac := fun _ data iv => (none, foldBlocks AES_BLOCK_SIZE aes iv data)
  tTdesMac := fun _ data iv => (none, foldBlocks DES_BLOCK_SIZE des iv data)
  hashInit := fun _ => .ok []
  hash := fun d s data => .ok (digest d (s ++ data))
  hashUpdate := fun _ s data => .ok (s ++ data)
  hashFinal := fun d s => .ok (digest d s)
  tRsaSign := some fun _ data => .ok data
  tRsaPssSign := some fun _ _ data _ => .ok data

/-- The token with the transparent MAC. -/
def xorToken : Token Unit (List UInt8) :=
  plainToken (xorStep _) (xorStep _) fun _ data => data

/-- `xorToken` works block by block. -/
theorem iterates_xorToken (m : MacMechanism) (key : Nat) :
    Iterates (xorToken.mac m) key (xorStep m.blockSize) := by
  cases m <;> exact ⟨plainKey, rfl, fun _ _ _ => rfl⟩

/-- AES-MAC over three bytes in three parts. -/
theorem xorToken_exact_three_bytes :
    ¬ MacMechanism.aesMac.blockSize ∣ (Input.parts [[1], [], [2, 3]]).message.length ∧
      ∀ signature, ExactRv none (cbcMac AES_BLOCK_SIZE (xorStep _) [1, 2, 3]) signature
        (verifyReturns xorToken (freshMacContext (m := .aesMac) 1 none 0) signature
          (.parts [[1], [], [2, 3]])) := by
  have hinit : verifyMgrInit xorToken .aesMac ⟨none, 0⟩ false 1 true
      = .ok (freshMacContext 1 none 0) := rfl
  have hfits : (Input.parts [[1], [], [2, 3]]).Fits := by simp [Input.Fits]
  have hrest : ¬ MacMechanism.aesMac.blockSize ∣
    (Input.parts [[1], [], [2, 3]]).message.length := by
    decide
  exact ⟨hrest, (macVerify_exact_iff hinit (iterates_xorToken .aesMac 1) hfits).mpr (.inr hrest)⟩

/-- A message of one full block. -/
def oneBlock : List UInt8 := [9, 0, 0, 0, 0, 0, 0, 0, 0, 0, 0, 0, 0, 0, 0, 0]

/-- `CKM_AES_MAC` has a MAC of 8 bytes. For a message of one block in one part, a signature of
the first byte of the MAC is accepted, and one of 17 bytes is compared with a byte behind the
MAC. In one call both are rejected. -/
theorem truncated_mac_accepted :
    verifyMgrInit xorToken .aesMac ⟨none, 0⟩ false 1 true = .ok (freshMacContext 1 none 0) ∧
      verifyReturns xorToken (freshMacContext (m := .aesMac) 1 none 0) [9] (.parts [oneBlock])
        = some .ok ∧
      [9].length ≠ macLenOf (none : Option (MacLen AES_BLOCK_SIZE)) ∧
      verifyReturns xorToken (freshMacContext (m := .aesMac) 1 none 0) (oneBlock ++ [0])
        (.parts [oneBlock]) = none ∧
      verifyReturns xorToken (freshMacContext (m := .aesMac) 1 none 0) [9] (.single oneBlock)
        = some .signatureLenRange :=
  ⟨rfl, by decide, by decide, by decide, by decide⟩

end OpenCryptoki.Proofs.Common
