import OpenCryptoki.Common.Hmac

/-!
# `OpenCryptoki.Proofs.Common.Hmac`: HMACs and the lengths of the caller

A context that an init function returns has the mechanism, the key, and no data (`ctxAt`), and the
length of the MAC is at most the size of the digest (`Accepted`). `scUpdates_ctxAt` is what the
calls with the parts of the data do. From there on an operation is one equation: `verifyRun_single`
and `verifyRun_parts` for a verification, and `signRun_single` and `signRun_parts` for a signature.

Neither of the two looks at the length that the caller gives. `hmac_verify_exact_iff` says for which
lengths a verification is exact nevertheless, and `hmac_sign_within_iff` for which lengths a
signature stays inside the buffer.
-/

set_option autoImplicit false

namespace OpenCryptoki.Proofs.Common.Hmac

open Lib OpenCryptoki.Common.Hmac List
open OpenCryptoki.Common hiding compareMac

/-! ### Contexts -/

/-- The two tables of digests agree on the size. -/
theorem size_hmacEvpMd (m : HmacMechanism) :
    (hmacEvpMd m).size = getShaSize (getHmacDigest m).1 := by
  cases m <;> rfl

/-- The length of the MACs of a mechanism. -/
def macLen (mech : HmacCkMechanism) : Nat :=
  if (getHmacDigest mech.mechanism).2 then mech.pParameter.getD 0
  else (hmacEvpMd mech.mechanism).size

/-- The MAC of the data. -/
def macOf (mech : HmacCkMechanism) (F : HmacImpl) (key data : List UInt8) : List UInt8 :=
  (F.mac (hmacEvpMd mech.mechanism) key data).take (macLen mech)

/-- The context of the mechanism after some data. -/
def ctxAt (mech : HmacCkMechanism) (key data : List UInt8) (multi multiInit : Bool) :
    HmacContext where
  mechanism := mech.mechanism
  pParameter := mech.pParameter
  context := some { md := hmacEvpMd mech.mechanism, key := key, data := data }
  multi := multi
  multiInit := multiInit

/-- The mechanism passes the checks of the init functions: there is a parameter if there has to be
one, and the MAC is not longer than the digest. -/
structure Accepted (mech : HmacCkMechanism) : Prop where
  param : (getHmacDigest mech.mechanism).2 = true → mech.pParameter = some (macLen mech)
  macLen_le : macLen mech ≤ (hmacEvpMd mech.mechanism).size

/-- The check of the parameter accepts lengths up to that of the digest. -/
theorem accepted_of_checkHmacParam {mech : HmacCkMechanism} {u : Unit}
    (h : checkHmacParam mech = .ok u) : Accepted mech := by
  unfold checkHmacParam at h
  by_cases hgeneral : (getHmacDigest mech.mechanism).2 = true
  · rw [if_pos hgeneral] at h
    cases hparam : mech.pParameter with
    | none =>
      rw [hparam] at h
      cases h
    | some param =>
      rw [hparam] at h
      obtain ⟨_, _, hle⟩ := bind_eq_ok.mp h
      have hlen : macLen mech = param := by
        unfold macLen
        rw [if_pos hgeneral, hparam]
        rfl
      refine ⟨fun _ => by rw [hlen, hparam], ?_⟩
      rw [hlen, size_hmacEvpMd]
      exact require_eq_ok.mp hle
  · have hlen : macLen mech = (hmacEvpMd mech.mechanism).size := if_neg hgeneral
    exact ⟨fun hg => absurd hg hgeneral, hlen.le⟩

/-- What an init function returns. -/
theorem hmacMgrInit_ok {mech : HmacCkMechanism} {key : HmacKey} {ctx : HmacContext}
    (h : hmacMgrInit mech key = .ok ctx) :
    Accepted mech ∧ ∃ value, key.value = some value ∧ ctx = ctxAt mech value [] false false := by
  obtain ⟨_, hparam, h⟩ := bind_eq_ok.mp h
  obtain ⟨_, -, h⟩ := bind_eq_ok.mp h
  obtain ⟨_, -, h⟩ := bind_eq_ok.mp h
  obtain ⟨mdctx, hmdctx, h⟩ := bind_eq_ok.mp h
  obtain ⟨value, hvalue, hmdctx⟩ := bind_eq_ok.mp hmdctx
  obtain ⟨_, -, hmdctx⟩ := bind_eq_ok.mp hmdctx
  refine ⟨accepted_of_checkHmacParam hparam, value, ?_, ?_⟩
  · cases hkey : key.value with
    | none =>
      rw [hkey] at hvalue
      cases hvalue
    | some v =>
      rw [hkey] at hvalue
      exact congrArg some (Except.ok.inj hvalue)
  · rw [← Except.ok.inj h, ← Except.ok.inj hmdctx]
    rfl

section
variable {F : HmacImpl} {mech : HmacCkMechanism} {key data : List UInt8} {multi multiInit : Bool}

section
variable (hmech : Accepted mech)
include hmech

/-- The MAC has the length that is asked for. -/
theorem length_macOf : (macOf mech F key data).length = macLen mech := by
  unfold macOf
  rw [length_take, F.length_mac]
  exact min_eq_left hmech.macLen_le

/-- The length of the MAC, from a context. -/
theorem hmacLen_ctxAt {n : Nat} (hn : n = (hmacEvpMd mech.mechanism).size) :
    (ctxAt mech key data multi multiInit).hmacLen n = .ok (macLen mech) := by
  unfold HmacContext.hmacLen
  by_cases hgeneral : (getHmacDigest mech.mechanism).2 = true
  · have hparam : (ctxAt mech key data multi multiInit).pParameter = some (macLen mech) :=
      hmech.param hgeneral
    rw [hparam]
    exact if_pos hgeneral
  · have hlen : macLen mech = (hmacEvpMd mech.mechanism).size := if_neg hgeneral
    rw [hlen, ← hn]
    exact if_neg hgeneral

omit hmech in
/-- The digest is the HMAC of all data. -/
theorem finalMac_ctxAt {more : List UInt8} :
    (ctxAt mech key data multi multiInit).finalMac F
        { md := hmacEvpMd mech.mechanism, key := key, data := more } =
      .ok (F.mac (hmacEvpMd mech.mechanism) key more) := by
  refine if_neg ?_
  show ¬ getShaSize (getHmacDigest mech.mechanism).1 < (hmacEvpMd mech.mechanism).size
  rw [size_hmacEvpMd]
  exact lt_irrefl _

/-! ### Verifying -/

variable {more signature : List UInt8}

/-- What `CRYPTO_memcmp` sees: as many bytes of the signature as the MAC has. -/
theorem compareMac_ctxAt :
    compareMac (ctxAt mech key data multi multiInit)
        (F.mac (hmacEvpMd mech.mechanism) key more) signature =
      if signature.length < macLen mech then .error .fault
      else check (signature.take (macLen mech) = macOf mech F key more) .signatureInvalid := by
  unfold compareMac
  rw [hmacLen_ctxAt hmech (F.length_mac _ _ _), ok_bind]
  by_cases hshort : signature.length < macLen mech
  · have hread : readAt signature 0 (macLen mech) = none := if_neg (by omega)
    rw [if_pos hshort, hread]
    rfl
  · have hmac : macLen mech ≤ (F.mac (hmacEvpMd mech.mechanism) key more).length := by
      rw [F.length_mac]
      exact hmech.macLen_le
    rw [if_neg hshort, readAt_eq_some (by omega), readAt_eq_some (by omega), access_bind,
      access_bind, drop_zero, drop_zero]
    rfl

/-- What a verification that gets to `CRYPTO_memcmp` returns. -/
def verdict (F : HmacImpl) (mech : HmacCkMechanism) (key data signature : List UInt8) :
    Option CkRv :=
  if signature.length < macLen mech then none
  else some (if signature.take (macLen mech) = macOf mech F key data
    then .ok else .signatureInvalid)

/-- The end of a verification returns the verdict. -/
theorem rc_endOfVerify :
    (endOfVerify (compareMac (ctxAt mech key data multi multiInit)
        (F.mac (hmacEvpMd mech.mechanism) key more) signature)).map VerifyResult.rc =
      verdict F mech key more signature := by
  rw [compareMac_ctxAt hmech, verdict]
  by_cases hshort : signature.length < macLen mech
  · rw [if_pos hshort, if_pos hshort]
    rfl
  · rw [if_neg hshort, if_neg hshort]
    by_cases heq : signature.take (macLen mech) = macOf mech F key more
    · rw [check_of heq, if_pos heq]
      rfl
    · rw [check_of_not heq, if_neg heq]
      rfl

omit hmech in
/-- The call for a message as a whole. -/
theorem opensslSpecificHmac_ctxAt (message : List UInt8) :
    opensslSpecificHmac F (ctxAt mech key [] false true) message =
      .ok (F.mac (hmacEvpMd mech.mechanism) key message) := finalMac_ctxAt

/-- A verification in one call. -/
theorem verifyRun_single (message signature : List UInt8) :
    verifyRun F (ctxAt mech key [] false false) (.single message) signature =
      verdict F mech key message signature := by
  have hrun : verifyMgrVerify F (ctxAt mech key [] false false) message signature =
      compareMac (ctxAt mech key [] false true) (F.mac (hmacEvpMd mech.mechanism) key message)
        signature := by
    show shaHmacVerify F (ctxAt mech key [] false true) message signature = _
    rw [shaHmacVerify, opensslSpecificHmac_ctxAt, ok_bind]
  show (endOfVerify (verifyMgrVerify F _ message signature)).map VerifyResult.rc = _
  rw [hrun, rc_endOfVerify hmech]

end

/-- One part, as the first one or after others. -/
theorem scUpdate_ctxAt (hmulti : multiInit = true → multi = true) (part : List UInt8) :
    scUpdate (some (ctxAt mech key data multi multiInit)) part =
      some ⟨.ok, some (ctxAt mech key (data ++ part) true true)⟩ := by
  cases multiInit with
  | false => rfl
  | true =>
    rw [hmulti rfl]
    rfl

/-- All the parts. -/
theorem scUpdates_ctxAt (parts : List (List UInt8)) :
    ∀ {data : List UInt8}, scUpdates (some (ctxAt mech key data true true)) parts =
      some ⟨.ok, some (ctxAt mech key (data ++ parts.flatten) true true)⟩ := by
  induction parts with
  | nil =>
    intro data
    rw [flatten_nil, append_nil]
    rfl
  | cons part parts ih =>
    intro data
    rw [scUpdates, scUpdate_ctxAt fun _ => rfl, Option.bind_some, if_pos rfl, ih,
      flatten_cons, append_assoc]

/-- The calls with the parts, from the first one on. -/
theorem scUpdates_first (part : List UInt8) (parts : List (List UInt8)) :
    scUpdates (some (ctxAt mech key [] false false)) (part :: parts) =
      some ⟨.ok, some (ctxAt mech key (part :: parts).flatten true true)⟩ := by
  rw [scUpdates, scUpdate_ctxAt (fun h => by cases h), Option.bind_some, if_pos rfl,
    scUpdates_ctxAt]
  rfl

/-- A verification in parts. -/
theorem verifyRun_parts (hmech : Accepted mech) (part : List UInt8) (parts : List (List UInt8))
    (signature : List UInt8) :
    verifyRun F (ctxAt mech key [] false false) (.parts (part :: parts)) signature =
      if signature.length = 0 then some .argumentsBad
      else verdict F mech key (part :: parts).flatten signature := by
  unfold verifyRun
  dsimp only
  rw [scUpdates_first, Option.bind_some, if_pos rfl, scVerifyFinal]
  by_cases hempty : signature.length = 0
  · rw [if_pos hempty, if_pos hempty]
    rfl
  · rw [if_neg hempty, if_neg hempty]
    have hrun : verifyMgrVerifyFinal F (ctxAt mech key (part :: parts).flatten true true)
      signature =
        compareMac (ctxAt mech key (part :: parts).flatten true true)
          (F.mac (hmacEvpMd mech.mechanism) key (part :: parts).flatten) signature := by
      show (HmacContext.finalMac F _ _ >>= _) = _
      rw [finalMac_ctxAt, ok_bind]
    rw [hrun, rc_endOfVerify hmech]

/-- Without a call of `SC_VerifyUpdate` the last call does not get to the signature. -/
theorem verifyRun_parts_nil (signature : List UInt8) :
    verifyRun F (ctxAt mech key [] false false) (.parts []) signature =
      some (if signature.length = 0 then .argumentsBad else .operationActive) := by
  show (scVerifyFinal F _ signature).map VerifyResult.rc = _
  unfold scVerifyFinal
  by_cases hempty : signature.length = 0
  · rw [if_pos hempty, if_pos hempty]
    rfl
  · rw [if_neg hempty, if_neg hempty]
    rfl

end

/-- The verification of the signature is exact: it does not read outside of the signature, and it
returns `CKR_OK` if and only if the signature is the MAC. -/
def VerifiesExactly (F : HmacImpl) (mech : HmacCkMechanism) (key : List UInt8) (ctx : HmacContext)
    (supply : Supply) (signature : List UInt8) : Prop :=
  ∃ rc, verifyRun F ctx supply signature = some rc ∧
    (rc = .ok ↔ signature.length = macLen mech ∧ signature = macOf mech F key supply.data)

/-- The lengths of signatures with which a verification is exact. -/
def ExactLength (sigLen macLen : Nat) : Supply → Prop
  | .single _       => sigLen = macLen
  | .parts []       => sigLen ≠ macLen
  | .parts (_ :: _) => if sigLen = 0 then macLen ≠ 0 else sigLen = macLen

section
variable {F : HmacImpl} {mech : HmacCkMechanism} {key : List UInt8}

/-- A verification that gets to `CRYPTO_memcmp` is exact for the length of the MAC only: a shorter
signature is read past its end, and of a longer one only the first bytes are compared. -/
theorem verdict_exact_iff (hmech : Accepted mech) (data : List UInt8) (sigLen : Nat) :
    (∀ signature : List UInt8, signature.length = sigLen →
      ∃ rc, verdict F mech key data signature = some rc ∧
        (rc = .ok ↔ signature.length = macLen mech ∧ signature = macOf mech F key data)) ↔
      sigLen = macLen mech := by
  constructor
  · intro hexact
    -- Some signature of each length begins with the MAC, as far as it goes.
    obtain ⟨signature, hlen, htake⟩ : ∃ signature : List UInt8, signature.length = sigLen ∧
        signature.take (macLen mech) = (macOf mech F key data).take sigLen := by
      refine ⟨(macOf mech F key data ++ List.replicate sigLen 0).take sigLen, ?_, ?_⟩
      · rw [length_take, length_append, length_replicate]
        omega
      · rw [take_take, Nat.min_comm, ← take_take, take_left' (length_macOf hmech)]
    obtain ⟨rc, hrc, hiff⟩ := hexact signature hlen
    unfold verdict at hrc
    by_cases hshort : signature.length < macLen mech
    · rw [if_pos hshort] at hrc
      cases hrc
    · have hwhole : (macOf mech F key data).take sigLen = macOf mech F key data :=
        take_of_length_le (by rw [length_macOf hmech]; omega)
      rw [if_neg hshort, if_pos (htake.trans hwhole)] at hrc
      exact hlen.symm.trans (hiff.mp (Option.some.inj hrc).symm).1
  · intro heq signature hlen
    refine ⟨_, if_neg (by omega), ?_⟩
    rw [take_of_length_le (by omega)]
    by_cases hmac : signature = macOf mech F key data
    · rw [if_pos hmac]
      exact iff_of_true rfl ⟨hlen.trans heq, hmac⟩
    · rw [if_neg hmac]
      exact iff_of_false nofun fun h => hmac h.2

end

/-- Let an init function have accepted the mechanism and the key. Then a verification of a signature
of `sigLen` bytes is exact, whatever the bytes are, if and only if `sigLen` is one of the lengths in
`ExactLength`. -/
theorem hmac_verify_exact_iff (F : HmacImpl) {mech : HmacCkMechanism} {key : HmacKey}
    {ctx : HmacContext} (hinit : hmacMgrInit mech key = .ok ctx) (supply : Supply) (sigLen : Nat) :
    (∀ signature : List UInt8, signature.length = sigLen →
      VerifiesExactly F mech (key.value.getD []) ctx supply signature) ↔
      ExactLength sigLen (macLen mech) supply := by
  obtain ⟨hmech, value, hvalue, rfl⟩ := hmacMgrInit_ok hinit
  rw [hvalue, Option.getD_some]
  unfold VerifiesExactly
  rcases supply with message | parts
  · simp only [verifyRun_single hmech]
    exact verdict_exact_iff hmech message sigLen
  · cases parts with
    | nil =>
      simp only [verifyRun_parts_nil]
      show _ ↔ sigLen ≠ macLen mech
      constructor
      · rintro hexact rfl
        -- The MAC itself is refused.
        obtain ⟨rc, hrc, hiff⟩ := hexact (macOf mech F value []) (length_macOf hmech)
        have hok : rc = .ok := hiff.mpr ⟨length_macOf hmech, rfl⟩
        rw [hok] at hrc
        split at hrc <;> cases hrc
      · intro hne signature hlen
        refine ⟨_, rfl, iff_of_false ?_ fun h => hne (hlen.symm.trans h.1)⟩
        split <;> exact nofun
    | cons part parts =>
      simp only [verifyRun_parts hmech]
      show _ ↔ if sigLen = 0 then macLen mech ≠ 0 else sigLen = macLen mech
      by_cases hempty : sigLen = 0
      · rw [if_pos hempty]
        constructor
        · intro hexact hzero
          obtain ⟨rc, hrc, hiff⟩ := hexact [] hempty.symm
          rw [if_pos length_nil] at hrc
          have hnil : macOf mech F value (part :: parts).flatten = [] :=
            length_eq_zero_iff.mp ((length_macOf hmech).trans hzero)
          have hok : rc = .ok := hiff.mpr ⟨hzero.symm, hnil.symm⟩
          rw [hok] at hrc
          cases hrc
        · intro hpos signature hlen
          refine ⟨_, if_pos (hlen.trans hempty), iff_of_false nofun fun h => ?_⟩
          exact hpos (h.1.symm.trans (hlen.trans hempty))
      · rw [if_neg hempty, ← verdict_exact_iff hmech (part :: parts).flatten]
        refine forall₂_congr fun signature hlen => ?_
        rw [if_neg (fun h => hempty (hlen.symm.trans h))]
        rfl

/-- In place of the HMAC: each byte is a checksum of the key and the data. -/
def checksumHmac : HmacImpl where
  mac md key data := List.replicate md.size (data.foldl (· + ·) (key.foldl (· + ·) 6))
  length_mac _ _ _ := List.length_replicate

/-- `CKM_SHA256_HMAC`. -/
def sha256Mech : HmacCkMechanism :=
  { mechanism := .sha256Hmac, pParameter := none, ulParameterLen := 0 }

/-- A generic secret key of one byte. -/
def secretKey : HmacKey := { keyType := some CKK_GENERIC_SECRET, value := some [0x01] }

/-- SHA-256 with all 32 bytes of the signature. -/
theorem hmac_verify_exact_sha256 :
    hmacMgrInit sha256Mech secretKey = .ok (ctxAt sha256Mech [0x01] [] false false) ∧
    ∀ signature : List UInt8, signature.length = 32 →
      VerifiesExactly checksumHmac sha256Mech [0x01] (ctxAt sha256Mech [0x01] [] false false)
        (.parts [[0x61], [0x62]]) signature := by
  have hinit : hmacMgrInit sha256Mech secretKey =
    .ok (ctxAt sha256Mech [0x01] [] false false) := rfl
  exact ⟨hinit, (hmac_verify_exact_iff checksumHmac hinit (.parts [[0x61], [0x62]]) 32).mpr rfl⟩

/-- The MAC with a byte behind it is accepted, and a signature that is one byte short is read past
its end. -/
theorem longer_signature_accepted :
    hmacMgrInit sha256Mech secretKey = .ok (ctxAt sha256Mech [0x01] [] false false) ∧
    verifyRun checksumHmac (ctxAt sha256Mech [0x01] [] false false) (.single [0x61])
      (List.replicate 32 0x68 ++ [0x00]) = some .ok ∧
    verifyRun checksumHmac (ctxAt sha256Mech [0x01] [] false false) (.single [0x61])
      (List.replicate 31 0x68) = none := by
  refine ⟨rfl, by decide, by decide⟩

/-! ### Signing -/

section
variable {F : HmacImpl} {mech : HmacCkMechanism} {key data : List UInt8} {multi multiInit : Bool}

/-- The MAC is copied to the start of the buffer. -/
theorem copyMac_ctxAt (hmech : Accepted mech) {more : List UInt8} (buf : Buf) :
    copyMac (ctxAt mech key data multi multiInit) (F.mac (hmacEvpMd mech.mechanism) key more) buf =
      .ok ⟨some (buf.write 0 (macOf mech F key more)), macLen mech⟩ := by
  have hmac : macLen mech ≤ (F.mac (hmacEvpMd mech.mechanism) key more).length := by
    rw [F.length_mac]
    exact hmech.macLen_le
  unfold copyMac
  rw [hmacLen_ctxAt hmech (F.length_mac _ _ _), ok_bind, readAt_eq_some (by omega), access_bind,
    drop_zero]
  rfl

/-- `SC_Sign` copies the MAC, whatever the length of the buffer is. -/
theorem signRun_single (hmech : Accepted mech) (message : List UInt8) (buf : Buf) (n : Nat) :
    signRun F (ctxAt mech key [] false false) (.single message) ⟨some buf, n⟩ =
      some ⟨.ok, none, ⟨some (buf.write 0 (macOf mech F key message)), macLen mech⟩⟩ := by
  have hsign : shaHmacSign F (ctxAt mech key [] false true) message ⟨some buf, n⟩ =
      .ok ⟨some (buf.write 0 (macOf mech F key message)), macLen mech⟩ := by
    have hle : ¬ macLen mech > getShaSize (getHmacDigest mech.mechanism).1 := by
      rw [← size_hmacEvpMd]
      exact hmech.macLen_le.not_gt
    show ((ctxAt mech key [] false true).hmacLen (getShaSize (getHmacDigest mech.mechanism).1) >>=
      fun hmacLen => check (¬ hmacLen > getShaSize (getHmacDigest mech.mechanism).1)
        .mechanismParamInvalid >>= _) = _
    rw [hmacLen_ctxAt hmech (size_hmacEvpMd _).symm, ok_bind, check_bind hle]
    by_cases hzero : macLen mech = 0
    · have hnil : macOf mech F key message = [] :=
        length_eq_zero_iff.mp ((length_macOf hmech).trans hzero)
      rw [if_pos hzero, hnil, Buf.write_nil, hzero]
    · rw [if_neg hzero]
      show (opensslSpecificHmac F _ message >>= _) = _
      rw [opensslSpecificHmac_ctxAt, ok_bind, copyMac_ctxAt hmech]
  show endOfSign _ _ (shaHmacSign F (ctxAt mech key [] false true) message ⟨some buf, n⟩) = _
  rw [hsign]
  rfl

/-- So does `SC_SignFinal`. -/
theorem signRun_parts (hmech : Accepted mech) (part : List UInt8) (parts : List (List UInt8))
    (buf : Buf) (n : Nat) :
    signRun F (ctxAt mech key [] false false) (.parts (part :: parts)) ⟨some buf, n⟩ =
      some ⟨.ok, none,
        ⟨some (buf.write 0 (macOf mech F key (part :: parts).flatten)), macLen mech⟩⟩ := by
  have hsign : signMgrSignFinal F (ctxAt mech key (part :: parts).flatten true true)
      ⟨some buf, n⟩ =
      .ok ⟨some (buf.write 0 (macOf mech F key (part :: parts).flatten)), macLen mech⟩ := by
    show (HmacContext.finalMac F _ _ >>= _) = _
    rw [finalMac_ctxAt, ok_bind, copyMac_ctxAt hmech]
  unfold signRun
  dsimp only
  rw [scUpdates_first, Option.bind_some, if_pos rfl]
  show endOfSign _ _ (signMgrSignFinal F _ ⟨some buf, n⟩) = _
  rw [hsign]
  rfl

end

/-- The signature stays inside a buffer of `n` bytes. Nothing is written behind the buffer. If the
MAC is longer than the buffer, the call returns `CKR_BUFFER_TOO_SMALL` and the length, and a later
call with a buffer that is large enough returns the MAC of the data. If the buffer is large enough,
the call returns the MAC of the data at once. -/
def SignsWithin (F : HmacImpl) (mech : HmacCkMechanism) (key : List UInt8) (ctx : HmacContext)
    (supply : Supply) (n : Nat) : Prop :=
  ∀ buf : Buf, ∃ r, signRun F ctx supply ⟨some buf, n⟩ = some r ∧
    (∃ buf', r.out.pSignature = some buf' ∧ ∀ i, n ≤ i → buf' i = buf i) ∧
    (n < macLen mech → r.rc = .bufferTooSmall ∧ r.out.ulSignatureLen = macLen mech ∧
      ∀ (buf' : Buf) (n' : Nat), macLen mech ≤ n' →
        ∃ r', signLast F r.ctx supply ⟨some buf', n'⟩ = some r' ∧ r'.rc = .ok ∧
          r'.out = ⟨some (buf'.write 0 (macOf mech F key supply.data)), macLen mech⟩) ∧
    (macLen mech ≤ n → r.rc = .ok ∧
      r.out = ⟨some (buf.write 0 (macOf mech F key supply.data)), macLen mech⟩)

/-- A run that copies the MAC stays inside the buffers that have room for it. -/
theorem signsWithin_iff_of_copies {F : HmacImpl} {mech : HmacCkMechanism} {key : List UInt8}
    {ctx : HmacContext} {supply : Supply} {n : Nat} (hmech : Accepted mech)
    (hrun : ∀ buf : Buf, signRun F ctx supply ⟨some buf, n⟩ = some ⟨.ok, none,
      ⟨some (buf.write 0 (macOf mech F key supply.data)), macLen mech⟩⟩) :
    SignsWithin F mech key ctx supply n ↔ macLen mech ≤ n := by
  constructor
  · intro hwithin
    obtain ⟨r, hr, -, hsmall, -⟩ := hwithin fun _ => 0
    by_contra hlt
    have hrc := (hsmall (not_le.mp hlt)).1
    rw [← Option.some.inj ((hrun _).symm.trans hr)] at hrc
    cases hrc
  · intro hle buf
    refine ⟨_, hrun buf, ⟨_, rfl, fun i hi => ?_⟩, fun hlt => absurd hle (by omega),
      fun _ => ⟨rfl, rfl⟩⟩
    unfold Buf.write
    rw [length_macOf hmech]
    exact if_neg (by omega)

/-- Let an init function have accepted the mechanism and the key. Then a signature stays inside a
buffer of `n` bytes if and only if there is room for the MAC, and the data is not given in no parts
at all. -/
theorem hmac_sign_within_iff (F : HmacImpl) {mech : HmacCkMechanism} {key : HmacKey}
    {ctx : HmacContext} (hinit : hmacMgrInit mech key = .ok ctx) (supply : Supply) (n : Nat) :
    SignsWithin F mech (key.value.getD []) ctx supply n ↔ macLen mech ≤ n ∧ supply ≠ .parts [] := by
  obtain ⟨hmech, value, hvalue, rfl⟩ := hmacMgrInit_ok hinit
  rw [hvalue, Option.getD_some]
  rcases supply with message | parts
  · rw [signsWithin_iff_of_copies hmech fun buf => signRun_single hmech message buf n]
    exact (and_iff_left nofun).symm
  · cases parts with
    | nil =>
      refine iff_of_false (fun hwithin => ?_) fun h => h.2 rfl
      -- `SC_SignFinal` returns `CKR_OPERATION_ACTIVE`, for every length.
      obtain ⟨r, hr, -, hsmall, hlarge⟩ := hwithin fun _ => 0
      have hrc : r.rc = .operationActive := by
        rw [← Option.some.inj hr]
      rcases lt_or_ge n (macLen mech) with hlt | hge
      · have := (hsmall hlt).1
        rw [hrc] at this
        cases this
      · have := (hlarge hge).1
        rw [hrc] at this
        cases this
    | cons part parts =>
      rw [signsWithin_iff_of_copies hmech fun buf => signRun_parts hmech part parts buf n]
      exact (and_iff_left nofun).symm

/-- SHA-256 into a buffer of 40 bytes. -/
theorem hmac_sign_within_sha256 :
    hmacMgrInit sha256Mech secretKey = .ok (ctxAt sha256Mech [0x01] [] false false) ∧
    SignsWithin checksumHmac sha256Mech [0x01] (ctxAt sha256Mech [0x01] [] false false)
      (.parts [[], [0x61]]) 40 := by
  have hinit : hmacMgrInit sha256Mech secretKey =
    .ok (ctxAt sha256Mech [0x01] [] false false) := rfl
  exact ⟨hinit, (hmac_sign_within_iff checksumHmac hinit (.parts [[], [0x61]]) 40).mpr
    ⟨by decide, nofun⟩⟩

/-- With a buffer of 16 bytes for a MAC of 32 bytes, `SC_Sign` returns `CKR_OK` and writes behind
the buffer. -/
theorem short_buffer_overwritten :
    hmacMgrInit sha256Mech secretKey = .ok (ctxAt sha256Mech [0x01] [] false false) ∧
    ∃ r buf', signRun checksumHmac (ctxAt sha256Mech [0x01] [] false false) (.single [0x61])
        ⟨some fun _ => 0, 16⟩ = some r ∧
      r.rc = .ok ∧ r.out.pSignature = some buf' ∧ buf' 16 = 0x68 :=
  ⟨rfl, _, _, rfl, rfl, rfl, by decide⟩

end OpenCryptoki.Proofs.Common.Hmac
