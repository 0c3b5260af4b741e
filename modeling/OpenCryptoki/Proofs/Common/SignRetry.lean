import OpenCryptoki.Lib.Run
import OpenCryptoki.Common.Sign

/-!
# `OpenCryptoki.Proofs.Common.SignRetry`: signing again after a buffer that was too small

A caller may give `C_Sign` or `C_SignFinal` a buffer that is too small, get
`CKR_BUFFER_TOO_SMALL`, and call again. `Harmless m input` states what they may rely on: the
memory behind the buffer is as before, the operation is still active, and a call that would
have succeeded at first gives the same result after any number of such calls.

The session layer keeps the operation, but the mechanisms may have gone on before the length
is looked at:

- A MAC in parts is harmless: the final function looks at the length first. In one call, a
  message that is not a number of full blocks is absorbed before the final function is
  reached, and absorbed again by the next call.
- RSA with a digest is harmless in one call, where the digest is on the stack. In parts the
  digest is over when the length of the signature is looked at. The PKCS #1 function then
  finds no active digest, and the PSS function starts a new one, without data.

`HarmlessWhen` says when each of them is harmless. An attempt that is absorbed again can go
unnoticed: zeros are what a block is filled up with, so a message of zeros whose length divides
the block size has the same MAC as its repetitions within the block.

This module proves that the calls are harmless in these cases. A function is safe to repeat
(`Safe`) if calls with a buffer that is too small stay within a set of contexts that all give the
same answer. Mostly this set has one element: the context is as before (`Retains`).
`OpenCryptoki.Proofs.Common.SignRetryLoss` proves that they are harmful in all other cases.
-/

set_option autoImplicit false

namespace OpenCryptoki.Proofs.Common

open Lib OpenCryptoki.Common
open List (replicate)

/-- A buffer of the caller, and the randomness of the token in the call. -/
structure Attempt where
  buf : Buf
  len : Nat
  salt : List UInt8

def Attempt.out (a : Attempt) : Out := ⟨some a.buf, a.len⟩

section
variable {K D : Type} {m : Mechanism}

/-- The call that ends an operation: `C_Sign` with the message, or `C_SignFinal`. -/
def finishCall (tok : Token K D) (input : Input) (sess : Option (Session D m)) (a : Attempt) :
    CallResult D m :=
  match input with
  | .single data => scSign tok sess data a.salt a.out
  | .parts _     => scSignFinal tok sess a.salt a.out

/-- A successful call of `C_SignUpdate`. -/
def updateStep (tok : Token K D) (sess : Option (Session D m)) (part : List UInt8) :
    Option (Option (Session D m)) :=
  match scSignUpdate tok sess part with
  | (.ok, sess) => some sess
  | _           => none

/-- The session after a successful `C_SignInit` and successful calls of `C_SignUpdate` for the
parts of the message. -/
def Started (tok : Token K D) (mech : CkMechanism m) (key : Nat) (input : Input)
    (sess : Option (Session D m)) : Prop :=
  ∃ first, scSignInit tok (some ⟨none⟩) mech key = (.ok, first) ∧ match input with
    | .single _ => sess = first
    | .parts ps => exec (updateStep tok) first ps = some sess

/-- A call that finds the buffer too small. -/
def tooSmallStep (tok : Token K D) (input : Input) (sess : Option (Session D m)) (a : Attempt) :
    Option (Option (Session D m)) :=
  if (finishCall tok input sess a).rc = .bufferTooSmall then
    some (finishCall tok input sess a).sess
  else none

/-- Nothing is written past the caller's buffer, and the operation is active. -/
structure Kept (a : Attempt) (r : CallResult D m) : Prop where
  memory : ∃ b, r.out.pSignature = some b ∧ ∀ i, a.len ≤ i → b i = a.buf i
  active : ∃ ctx, r.sess = some ⟨some ctx⟩

end

/-- Calls with a buffer that is too small are harmless: after any number of them, such a call
keeps the memory and the operation, and a call that would have succeeded in their place
succeeds with the same output. -/
def Harmless (m : Mechanism) (input : Input) : Prop :=
  ∀ (K D : Type) (tok : Token K D) (mech : CkMechanism m) (key : Nat)
    (sess sess' : Option (Session D m)) (as : List Attempt),
    Started tok mech key input sess → exec (tooSmallStep tok input) sess as = some sess' →
      (∀ a, (finishCall tok input sess' a).rc = .bufferTooSmall →
        Kept a (finishCall tok input sess' a)) ∧
      ∀ a, (finishCall tok input sess a).rc = .ok → (finishCall tok input sess' a).rc = .ok ∧
          (finishCall tok input sess' a).out = (finishCall tok input sess a).out

/-- When calls with a buffer that is too small are harmless. -/
def HarmlessWhen : Mechanism → Input → Prop
  | .mac m, .single data =>
    m.blockSize ∣ data.length ∨ data.length ∣ m.blockSize ∧ data = List.replicate data.length 0
  | .hashRsaPkcs _, .parts ps      => ps = []
  | .hashRsaPkcsPss _ _, .parts ps => ps.flatten = []
  | _, _                           => True

/-! ### What a call with a buffer that is too small leaves -/

section
variable {K D : Type}

/-- A function that finds the buffer too small has not written to it. -/
def Untouched (out : Out) (r : CkRv × Out) : Prop :=
  r.1 = .bufferTooSmall → r.2.pSignature = out.pSignature

/-- A call that returns the buffer has not touched it. -/
theorem untouched_self (out : Out) (rc : CkRv) : Untouched out (rc, out) := fun _ => rfl

/-- The call of the token does not touch a buffer that is too small. -/
theorem rsaTokenSign_untouched {out : Out} {buf : Buf} (hbuf : out.pSignature = some buf)
    (modulusBytes keyclass : Nat) (tSign : Option (Except Failure (List UInt8))) :
    Untouched out (rsaTokenSign modulusBytes keyclass tSign out buf) := by
  unfold rsaTokenSign
  split
  · exact fun _ => hbuf.symm
  · split
    · exact untouched_self out _
    · split
      · exact untouched_self out _
      · exact untouched_self out _
      · exact nofun

/-- Neither does `rsa_pkcs_sign`. -/
theorem rsaPkcsSign_untouched (tok : Token K D) (key : Nat) (inData : List UInt8) (out : Out) :
    Untouched out (rsaPkcsSign tok key inData out) := by
  rw [rsaPkcsSign]
  split
  · exact untouched_self out _
  · split
    · exact untouched_self out _
    · split
      · exact untouched_self out _
      · split
        · exact nofun
        · exact rsaTokenSign_untouched ‹_› _ _ _

/-- Neither does `rsa_pss_sign`. -/
theorem rsaPssSign_untouched (tok : Token K D) (key : Nat) (pssParms : PssParams)
    (inData salt : List UInt8) (out : Out) :
    Untouched out (rsaPssSign tok key pssParms inData salt out) := by
  rw [rsaPssSign]
  split
  · exact untouched_self out _
  · split
    · exact untouched_self out _
    · split
      · exact nofun
      · split
        · exact untouched_self out _
        · exact rsaTokenSign_untouched ‹_› _ _ _

variable {C : Type}

/-- The checks of the sign manager do not touch the output. -/
theorem signMgrSignChecks_untouched {P : Type} {ctx : SignVerifyContext P C} {out : Out}
    {switch : SignVerifyContext P C → SignResult (SignVerifyContext P C)}
    (h : ∀ ctx, Untouched out ((switch ctx).rc, (switch ctx).out)) :
    Untouched out ((signMgrSignChecks ctx out switch).rc,
      (signMgrSignChecks ctx out switch).out) := by
  rw [signMgrSignChecks]
  split
  · exact untouched_self out _
  · split
    · exact untouched_self out _
    · dsimp only
      generalize (if ctx.multiInit = true then ctx
        else { ctx with multi := false, multiInit := true }) = ctx'
      split
      · exact untouched_self out _
      · exact h ctx'

/-- Neither does the call that signs a hash with PSS. -/
theorem signWithRsaPkcsPss_untouched (tok : Token K D) (key : Nat) (param : PssParams)
    (ulParameterLen : Nat) (hash salt : List UInt8) (out : Out) :
    Untouched out (signWithRsaPkcsPss tok key param ulParameterLen hash salt out) := by
  rw [signWithRsaPkcsPss]
  split
  · exact untouched_self out _
  · exact signMgrSignChecks_untouched fun ctx =>
      rsaPssSign_untouched tok ctx.key ctx.param hash salt out

section
variable (tok : Token K D) (d : DigestMechanism) (key : Nat)

/-- Neither does the call that signs an encoded hash. -/
theorem signEncodedHash_untouched (hash : List UInt8) (out : Out) :
    Untouched out (signEncodedHash tok d key hash out) := by
  rw [signEncodedHash]
  split
  · exact untouched_self out _
  · split
    · exact untouched_self out _
    · rw [signWithRsaPkcs]
      split
      · exact untouched_self out _
      · exact signMgrSignChecks_untouched fun ctx => rsaPkcsSign_untouched tok ctx.key _ out

/-- Neither does `rsa_hash_pkcs_sign`. -/
theorem rsaHashPkcsSign_untouched (inData : List UInt8) (out : Out) :
    Untouched out (rsaHashPkcsSign tok d key inData out) := by
  rw [rsaHashPkcsSign]
  split
  · split
    · exact untouched_self out _
    · exact signEncodedHash_untouched tok d key _ out
  · exact untouched_self out _

/-- Neither does `rsa_hash_pss_sign`. -/
theorem rsaHashPssSign_untouched (param : PssParams) (ulParameterLen : Nat)
    (inData salt : List UInt8) (out : Out) :
    Untouched out (rsaHashPssSign tok d key param ulParameterLen inData salt out) := by
  rw [rsaHashPssSign]
  split
  · split
    · exact untouched_self out _
    · exact signWithRsaPkcsPss_untouched tok key param ulParameterLen _ salt out
  · exact untouched_self out _

end

/-- Calls of `op` with a buffer that is too small may be repeated: they lead from one of the
contexts `Good` to one of them, they have not written to the buffer, and a call that succeeds
in the first context succeeds in each of them with the same output. -/
structure SafeIn {C : Type} (op : C → Attempt → SignResult C) (ctx : C) (Good : C → Prop) :
    Prop where
  start : Good ctx
  step : ∀ c a, Good c → (op c a).rc = .bufferTooSmall →
    (∃ c', Good c' ∧ (op c a).ctx = some c') ∧ (op c a).out.pSignature = some a.buf
  same : ∀ c a, Good c → (op ctx a).rc = .ok → (op c a).rc = .ok ∧ (op c a).out = (op ctx a).out

/-- Calls of `op` with a buffer that is too small may be repeated, from `ctx` on. -/
def Safe {C : Type} (op : C → Attempt → SignResult C) (ctx : C) : Prop := ∃ Good, SafeIn op ctx Good

/-- A result that, if the buffer is too small, has the context and the memory as before. -/
def Retains {C : Type} (ctx : C) (out : Out) (r : SignResult C) : Prop :=
  r.rc = .bufferTooSmall → r.ctx = some ctx ∧ r.out.pSignature = out.pSignature

/-- Another result than a buffer that is too small. -/
theorem retains_of_ne {ctx : C} {out : Out} {r : SignResult C} (h : r.rc ≠ .bufferTooSmall) :
    Retains ctx out r := fun hrc => absurd hrc h

/-- A call that keeps the context. -/
theorem retains_ofOut {ctx : C} {out : Out} {r : CkRv × Out} (h : Untouched out r) :
    Retains ctx out (.ofOut ctx r) := fun hrc => ⟨rfl, h hrc⟩

/-- Calls that retain the context may be repeated. -/
theorem safe_of_retains {op : C → Attempt → SignResult C} {ctx : C}
    (h : ∀ a, Retains ctx a.out (op ctx a)) : Safe op ctx := by
  refine ⟨fun c => c = ctx, rfl, ?_, ?_⟩
  · rintro c a rfl hsmall
    obtain ⟨hctx, hmem⟩ := h a hsmall
    exact ⟨⟨c, rfl, hctx⟩, hmem⟩
  · rintro c a rfl hok
    exact ⟨hok, rfl⟩

section
variable {bs : Nat} (tok : MacToken K bs) (key : Nat) (param : Option (MacLen bs))
  (context : DataContext bs) (out : Out)

/-- The final function of a MAC looks at the length before anything else. -/
theorem macSignFinal_retains : Retains context out (macSignFinal tok key param context out) := by
  unfold macSignFinal
  dsimp only
  split
  · exact retains_of_ne nofun
  · split
    · split
      · exact fun _ => ⟨rfl, Eq.symm ‹_›⟩
      · split
        · exact retains_of_ne (Failure.rc_ne_bufferTooSmall _)
        · split
          · exact retains_of_ne (Failure.rc_ne_bufferTooSmall _)
          · exact retains_of_ne nofun
    · exact retains_of_ne nofun

/-- In one call this holds for a message of full blocks. -/
theorem macSign_retains {inData : List UInt8} (hdvd : bs ∣ inData.length) :
    Retains context out (macSign tok key param context inData out) := by
  unfold macSign
  split
  · exact retains_of_ne nofun
  · rw [if_neg (not_not_intro (Nat.mod_eq_zero_of_dvd hdvd))]
    split
    · exact fun _ => ⟨rfl, Eq.symm ‹_›⟩
    · split
      · exact retains_of_ne (Failure.rc_ne_bufferTooSmall _)
      · split
        · exact retains_of_ne (Failure.rc_ne_bufferTooSmall _)
        · exact retains_of_ne nofun

end

/-- Every mechanism signs in the same way. -/
theorem macSignSwitch_eq (tok : Token K D) (m : MacMechanism) :
    macSignSwitch tok m = macSign (tok.mac m) := by
  cases m <;> rfl

/-! ### The session layer -/

variable {m : Mechanism} {tok : Token K D} {input : Input} {ctx : SignCtx D m}
  {as : List Attempt} {sess' sess : Option (Session D m)} {mech : CkMechanism m}
  {data part : List UInt8} {op : ContextOf D m → Attempt → SignResult (ContextOf D m)}
  {ps : List (List UInt8)}

section
variable (lengthOnly : Bool) (r : SignResult (SignCtx D m))

/-- The end of a call keeps the result. -/
theorem endOfSign_rc : (endOfSign lengthOnly r).rc = r.rc := by
  unfold endOfSign
  split <;> rfl

/-- The end of a call keeps the buffer. -/
theorem endOfSign_out : (endOfSign lengthOnly r).out = r.out := by
  unfold endOfSign
  split <;> rfl

end

/-- A buffer that is too small does not end the operation. -/
theorem endOfSign_sess {lengthOnly : Bool} {r : SignResult (SignCtx D m)}
    (h : r.rc = .bufferTooSmall) : (endOfSign lengthOnly r).sess = some ⟨r.ctx⟩ := by
  unfold endOfSign
  rw [if_neg fun hne => hne.1 h]

/-- The sign manager's part of the call that ends an operation. -/
def finishOp (tok : Token K D) (input : Input) (ctx : SignCtx D m) (a : Attempt) :
    SignResult (SignCtx D m) :=
  match input with
  | .single data => signMgrSign tok ctx data a.salt a.out
  | .parts _     => signMgrSignFinal tok ctx a.salt a.out

/-- The last call of an operation that has been started. -/
theorem finishCall_some (hinit : tok.initialized = true) (input : Input) (ctx : SignCtx D m)
    (a : Attempt) :
    finishCall tok input (some ⟨some ctx⟩) a = endOfSign false (finishOp tok input ctx a) := by
  cases input with
  | single data => simp only [finishCall, scSign, hinit, finishOp]; rfl
  | parts ps => simp only [finishCall, scSignFinal, hinit, finishOp]; rfl

/-- Without an active operation the call returns an error. -/
theorem finishCall_none (tok : Token K D) (input : Input) (a : Attempt) :
    (finishCall tok input (some ⟨none⟩ : Option (Session D m)) a).rc ≠ .bufferTooSmall ∧
      (finishCall tok input (some ⟨none⟩ : Option (Session D m)) a).rc ≠ .ok := by
  cases input with
  | single data => cases hinit : tok.initialized <;> simp [finishCall, scSign, hinit]
  | parts ps => cases hinit : tok.initialized <;> simp [finishCall, scSignFinal, hinit]

/-- If the sign manager's part is safe to repeat, calls with a buffer that is too small are
harmless. -/
theorem harmless_of_safe (hinit : tok.initialized = true) (hsafe : Safe (finishOp tok input) ctx)
    (hrun : exec (tooSmallStep tok input) (some ⟨some ctx⟩) as = some sess') :
    (∀ a, (finishCall tok input sess' a).rc = .bufferTooSmall →
        Kept a (finishCall tok input sess' a)) ∧
      ∀ a, (finishCall tok input (some ⟨some ctx⟩) a).rc = .ok →
        (finishCall tok input sess' a).rc = .ok ∧ (finishCall tok input sess' a).out
          = (finishCall tok input (some ⟨some ctx⟩) a).out := by
  obtain ⟨Good, hstart, hstep, hsame⟩ := hsafe
  have hgood : ∃ c, Good c ∧ sess' = some ⟨some c⟩ := by
    refine exec_invariant (I := fun s => ∃ c, Good c ∧ s = some ⟨some c⟩) ?_
      ⟨ctx, hstart, rfl⟩ hrun
    rintro s a s' ⟨c, hc, rfl⟩ hs
    unfold tooSmallStep at hs
    split at hs
    · rename_i hsmall
      rw [finishCall_some hinit, endOfSign_rc] at hsmall
      obtain ⟨⟨c', hc', hctx⟩, -⟩ := hstep c a hc hsmall
      refine ⟨c', hc', ?_⟩
      rw [← Option.some.inj hs, finishCall_some hinit, endOfSign_sess hsmall, hctx]
    · cases hs
  obtain ⟨c, hc, rfl⟩ := hgood
  constructor
  · intro a hsmall
    rw [finishCall_some hinit, endOfSign_rc] at hsmall
    obtain ⟨⟨c', -, hctx⟩, hmem⟩ := hstep c a hc hsmall
    rw [finishCall_some hinit]
    refine ⟨⟨a.buf, ?_, fun _ _ => rfl⟩, ⟨c', ?_⟩⟩
    · rw [endOfSign_out, hmem]
    · rw [endOfSign_sess hsmall, hctx]
  · intro a hok
    rw [finishCall_some hinit, endOfSign_rc] at hok
    rw [finishCall_some hinit, finishCall_some hinit, endOfSign_rc, endOfSign_out, endOfSign_out]
    exact hsame c a hc hok

/-- Without an active operation there is no call with a buffer that is too small. -/
theorem harmless_of_none (hrun : exec (tooSmallStep tok input) (some ⟨none⟩) as = some sess') :
    (∀ a, (finishCall tok input sess' a).rc = .bufferTooSmall →
        Kept a (finishCall tok input sess' a)) ∧
      ∀ a, (finishCall tok input (some ⟨none⟩ : Option (Session D m)) a).rc = .ok →
        (finishCall tok input sess' a).rc = .ok ∧ (finishCall tok input sess' a).out
          = (finishCall tok input (some ⟨none⟩ : Option (Session D m)) a).out := by
  have hsess : sess' = some ⟨none⟩ := by
    refine exec_invariant (I := fun s => s = some ⟨none⟩) ?_ rfl hrun
    rintro s a s' rfl hs
    unfold tooSmallStep at hs
    rw [if_neg (finishCall_none tok input a).1] at hs
    cases hs
  subst hsess
  exact ⟨fun a h => absurd h (finishCall_none tok input a).1,
    fun a h => absurd h (finishCall_none tok input a).2⟩

/-- `C_SignInit` sets up the context of `sign_mgr_init`. -/
theorem scSignInit_ok {key : Nat} {first : Option (Session D m)}
    (h : scSignInit tok (some ⟨none⟩) mech key = (.ok, first)) :
    tok.initialized = true ∧ (first = some ⟨none⟩ ∨
      ∃ ctx, signMgrInit tok m mech false key true true = .ok ctx ∧ first = some ⟨some ctx⟩) := by
  unfold scSignInit at h
  split at h
  · cases h
  · rename_i hinit
    refine ⟨by simpa using hinit, ?_⟩
    dsimp only at h
    split at h
    · cases h
    · split at h
      · cases h
      · split at h
        · rename_i habsurd
          cases habsurd
        · split at h
          · exact .inl (Prod.mk.inj h).2.symm
          · rename_i ctx hctx
            exact .inr ⟨ctx, hctx, (Prod.mk.inj h).2.symm⟩

/-- The init function returns a fresh context. -/
theorem signMgrInit_ok {key : Nat} (h : signMgrInit tok m mech false key true true = .ok ctx) :
    (ctx.multi = false ∧ ctx.multiInit = false ∧ ctx.recover = false) ∧
      ∃ obj : KeyObject K, signInitSwitch obj m mech = .ok (ctx.param, ctx.context) := by
  obtain ⟨obj, _, h⟩ := bind_eq_ok.mp h
  obtain ⟨_, _, h⟩ := bind_eq_ok.mp h
  obtain ⟨_, _, h⟩ := bind_eq_ok.mp h
  obtain ⟨_, _, h⟩ := bind_eq_ok.mp h
  obtain ⟨_, _, h⟩ := bind_eq_ok.mp h
  obtain ⟨⟨param, context⟩, hswitch, h⟩ := bind_eq_ok.mp h
  rw [← Except.ok.inj h]
  exact ⟨⟨rfl, rfl, rfl⟩, obj, hswitch⟩

/-- The context after the first `C_Sign`. -/
def asSingle (ctx : SignCtx D m) : SignCtx D m := { ctx with multi := false, multiInit := true }

/-- `C_Sign` of an operation that is not one in parts. -/
theorem signMgrSign_eq (tok : Token K D) {c : SignCtx D m} (hrecover : c.recover = false)
    (hsingle : c.multiInit = true → c.multi = false) (data salt : List UInt8) (out : Out) :
    signMgrSign tok c data salt out = if c.authRequired then ⟨.userNotLoggedIn, some c, out⟩
        else signSwitch tok m (asSingle c) data salt out := by
  obtain ⟨key, param, ulParameterLen, context, multi, multiInit, recover, authRequired⟩ := c
  cases hrecover
  cases multiInit with
  | false => simp [signMgrSign, signMgrSignChecks, asSingle]
  | true =>
    cases hsingle rfl
    simp [signMgrSign, signMgrSignChecks, asSingle]

/-- `C_Sign` is safe to repeat if the mechanism is, with what it keeps in the work area. -/
theorem safe_sign (hrecover : ctx.recover = false) (hmultiInit : ctx.multiInit = false)
    (hop : ∀ context a, signSwitch tok m { asSingle ctx with context := context } data a.salt a.out
      = .ofContext { asSingle ctx with context := context } (op context a))
    (h : Safe op ctx.context) : Safe (finishOp tok (.single data)) ctx := by
  obtain ⟨Good, hstart, hstep, hsame⟩ := h
  -- The flags are those of the fresh context before the first call, and set after it.
  have hcall : ∀ c context a,
      (c = { ctx with context := context } ∨ c = { asSingle ctx with context := context }) →
      finishOp tok (.single data) c a = if ctx.authRequired then ⟨.userNotLoggedIn, some c, a.out⟩
          else .ofContext { asSingle ctx with context := context } (op context a) := by
    intro c context a hc
    rw [← hop context a]
    rcases hc with rfl | rfl
    · exact signMgrSign_eq tok (c := { ctx with context := context }) hrecover
        (fun h => nomatch hmultiInit.symm.trans h) data a.salt a.out
    · exact signMgrSign_eq tok (c := { asSingle ctx with context := context }) hrecover
        (fun _ => rfl) data a.salt a.out
  refine ⟨fun c => ∃ context, Good context ∧
    (c = { ctx with context := context } ∨ c = { asSingle ctx with context := context }),
    ⟨ctx.context, hstart, .inl rfl⟩, ?_, ?_⟩
  · rintro c a ⟨context, hgood, hc⟩ hsmall
    rw [hcall c context a hc] at hsmall ⊢
    split at hsmall
    · cases hsmall
    · rename_i hauth
      rw [if_neg hauth]
      obtain ⟨⟨context', hgood', hctx⟩, hmem⟩ := hstep context a hgood hsmall
      refine ⟨⟨_, ⟨context', hgood', .inr rfl⟩, ?_⟩, hmem⟩
      rw [SignResult.ofContext, hctx]
      rfl
  · rintro c a ⟨context, hgood, hc⟩ hok
    rw [hcall ctx ctx.context a (.inl rfl)] at hok ⊢
    rw [hcall c context a hc]
    split at hok
    · cases hok
    · rename_i hauth
      rw [if_neg hauth, if_neg hauth]
      exact hsame context a hgood hok

/-- In one call, calls with a buffer that is too small are harmless if the mechanism is safe. -/
theorem harmless_of_sign
    (h : ∀ (K D : Type) (tok : Token K D) (mech : CkMechanism m) (obj : KeyObject K)
      (ctx : SignCtx D m), signInitSwitch obj m mech = .ok (ctx.param, ctx.context) →
      ∃ op : ContextOf D m → Attempt → SignResult (ContextOf D m),
        (∀ context a, signSwitch tok m { asSingle ctx with context := context } data a.salt a.out =
          .ofContext { asSingle ctx with context := context } (op context a)) ∧
        Safe op ctx.context) :
    Harmless m (.single data) := by
  rintro K D tok mech key sess sess' as ⟨first, hfirst, rfl⟩ hrun
  obtain ⟨hinit, rfl | ⟨ctx, hctx, rfl⟩⟩ := scSignInit_ok hfirst
  · exact harmless_of_none hrun
  · obtain ⟨⟨-, hmultiInit, hrecover⟩, obj, hswitch⟩ := signMgrInit_ok hctx
    obtain ⟨op, hop, hsafe⟩ := h K D tok mech obj ctx hswitch
    exact harmless_of_safe hinit (safe_sign hrecover hmultiInit hop hsafe) hrun

/-- In one call, RSA is harmless. -/
theorem harmless_rsa_single (hrsa : ∀ m', m ≠ .mac m') (data : List UInt8) :
    Harmless m (.single data) := by
  refine harmless_of_sign fun K D tok _ _ ctx _ => ?_
  cases m with
  | mac m' => exact absurd rfl (hrsa m')
  | rsaPkcs =>
    exact ⟨fun context a => .ofOut context (rsaPkcsSign tok ctx.key data a.out), fun _ _ => rfl,
      safe_of_retains fun a => retains_ofOut (rsaPkcsSign_untouched _ _ _ _)⟩
  | rsaPkcsPss =>
    exact ⟨fun context a => .ofOut context (rsaPssSign tok ctx.key ctx.param data a.salt a.out),
      fun _ _ => rfl, safe_of_retains fun a => retains_ofOut (rsaPssSign_untouched _ _ _ _ _ _)⟩
  | hashRsaPkcs d =>
    exact ⟨fun context a => .ofOut context (rsaHashPkcsSign tok d ctx.key data a.out),
      fun _ _ => rfl, safe_of_retains fun a => retains_ofOut (rsaHashPkcsSign_untouched _ _ _ _ _)⟩
  | hashRsaPkcsPss d h =>
    exact ⟨fun context a => .ofOut context
        (rsaHashPssSign tok d ctx.key ctx.param ctx.ulParameterLen data a.salt a.out),
      fun _ _ => rfl,
      safe_of_retains fun a => retains_ofOut (rsaHashPssSign_untouched _ _ _ _ _ _ _ _)⟩

/-- In one call, a MAC is harmless for a message of full blocks. -/
theorem harmless_mac_of_dvd {m : MacMechanism} (hdvd : m.blockSize ∣ data.length) :
    Harmless (.mac m) (.single data) := by
  refine harmless_of_sign fun K D tok _ _ ctx _ => ?_
  refine ⟨fun context a => macSign (tok.mac m) ctx.key ctx.param context data a.out, ?_,
    safe_of_retains fun a => macSign_retains _ _ _ _ _ hdvd⟩
  intro context a
  rw [← macSignSwitch_eq]
  rfl

/-! ### Messages in parts -/

/-- A successful `C_SignUpdate` is one of the sign manager. -/
theorem updateStep_eq_some (h : updateStep tok sess part = some sess') :
    ∃ ctx ctx', sess = some ⟨some ctx⟩ ∧ signMgrSignUpdate tok ctx part = (.ok, ctx') ∧
      sess' = some ⟨some ctx'⟩ := by
  cases hinit : tok.initialized with
  | false => simp [updateStep, scSignUpdate, hinit] at h
  | true =>
    match sess with
    | none | some ⟨none⟩ => simp [updateStep, scSignUpdate, hinit] at h
    | some ⟨some ctx⟩ =>
      rcases hupdate : signMgrSignUpdate tok ctx part with ⟨rc, ctx'⟩
      cases rc
      case ok =>
        simp only [updateStep, scSignUpdate, hinit, hupdate] at h
        exact ⟨ctx, ctx', rfl, hupdate, (Option.some.inj h).symm⟩
      all_goals
        simp [updateStep, scSignUpdate, hinit, hupdate] at h

/-- The session of a message in parts: the operation is active, or it never was. -/
theorem started_parts {key : Nat} (h : Started tok mech key (.parts ps) sess) :
    tok.initialized = true ∧ (sess = some ⟨none⟩ ∨ ∃ ctx, sess = some ⟨some ctx⟩) := by
  obtain ⟨first, hfirst, hrun⟩ := h
  obtain ⟨hinit, hsess⟩ := scSignInit_ok hfirst
  refine ⟨hinit, exec_invariant
    (I := fun s => s = some ⟨none⟩ ∨ ∃ ctx, s = some ⟨some ctx⟩) ?_ ?_ hrun⟩
  · intro s part s' _ hs
    obtain ⟨-, ctx', -, -, rfl⟩ := updateStep_eq_some hs
    exact .inr ⟨ctx', rfl⟩
  · rcases hsess with rfl | ⟨ctx, -, rfl⟩
    · exact .inl rfl
    · exact .inr ⟨ctx, rfl⟩

/-- The invariant rule for the parts of a message: what holds after `sign_mgr_init` and is kept
by each part holds before the final call. -/
theorem Started.invariant {P : SignCtx D m → Prop} {key : Nat}
    (hinit : ∀ ctx, signMgrInit tok m mech false key true true = .ok ctx → P ctx)
    (hpart : ∀ part ∈ ps, ∀ ctx ctx', P ctx → signMgrSignUpdate tok ctx part = (.ok, ctx') → P ctx')
    (h : Started tok mech key (.parts ps) (some ⟨some ctx⟩)) : P ctx := by
  obtain ⟨first, hfirst, hrun⟩ := h
  have hguard : Guarded (updateStep tok) (fun _ part => part ∈ ps) first ps :=
    guarded_of_mem fun part hmem _ => hmem
  refine exec_invariant_guarded (I := fun s => ∀ ctx, s = some ⟨some ctx⟩ → P ctx) ?_ ?_ hguard
    hrun ctx rfl
  · intro s part s' hs hmem hstep c hc
    obtain ⟨ctx, ctx', rfl, hupdate, rfl⟩ := updateStep_eq_some hstep
    cases hc
    exact hpart part hmem ctx c (hs ctx rfl) hupdate
  · intro c hc
    rcases (scSignInit_ok hfirst).2 with rfl | ⟨ctx, hctx, rfl⟩
    · cases hc
    · cases hc
      exact hinit c hctx

/-- `C_SignFinal` is safe to repeat if the mechanism is, with what it keeps in the work area. -/
theorem safe_final (op : ContextOf D m → Attempt → SignResult (ContextOf D m))
    (hop : ∀ context a, signFinalSwitch tok m { ctx with context := context } a.salt a.out =
      .ofContext { ctx with context := context } (op context a)) (h : Safe op ctx.context) :
    Safe (finishOp tok (.parts ps)) ctx := by
  obtain ⟨Good, hstart, hstep, hsame⟩ := h
  refine ⟨fun c => ∃ context, Good context ∧ c = { ctx with context := context },
    ⟨ctx.context, hstart, rfl⟩, ?_, ?_⟩
  · rintro c a ⟨context, hgood, rfl⟩ hsmall
    simp only [finishOp, signMgrSignFinal, hop] at hsmall ⊢
    split_ifs at hsmall ⊢
    obtain ⟨⟨context', hgood', hctx⟩, hmem⟩ := hstep context a hgood hsmall
    refine ⟨⟨_, ⟨context', hgood', rfl⟩, ?_⟩, hmem⟩
    rw [SignResult.ofContext, hctx]
    rfl
  · rintro c a ⟨context, hgood, rfl⟩ hok
    simp only [finishOp, signMgrSignFinal, hop] at hok ⊢
    split_ifs at hok ⊢
    exact hsame context a hgood hok

/-- In parts, calls with a buffer that is too small are harmless if the final function is safe. -/
theorem harmless_of_final
    (h : ∀ (K D : Type) (tok : Token K D) (mech : CkMechanism m) (key : Nat) (ctx : SignCtx D m),
      Started tok mech key (.parts ps) (some ⟨some ctx⟩) → Safe (finishOp tok (.parts ps)) ctx) :
    Harmless m (.parts ps) := by
  intro K D tok mech key sess sess' as hstarted hrun
  obtain ⟨hinit, rfl | ⟨ctx, rfl⟩⟩ := started_parts hstarted
  · exact harmless_of_none hrun
  · exact harmless_of_safe hinit (h K D tok mech key ctx hstarted) hrun

/-- A MAC in parts is harmless. -/
theorem harmless_mac_parts (m : MacMechanism) (ps : List (List UInt8)) :
    Harmless (.mac m) (.parts ps) := by
  refine harmless_of_final fun K D tok _ _ ctx _ => ?_
  refine safe_final
    (fun context a => macSignFinal (tok.mac m) ctx.key ctx.param context a.out) ?_
    (safe_of_retains fun a => macSignFinal_retains _ _ _ _ _)
  intro context a
  have heq : macSignFinalSwitch tok m = macSignFinal (tok.mac m) := by
    cases m <;> rfl
  rw [← heq]
  rfl

/-- The RSA mechanisms without a digest do not work in parts. -/
theorem harmless_rsa_parts (h : m = .rsaPkcs ∨ m = .rsaPkcsPss) (ps : List (List UInt8)) :
    Harmless m (.parts ps) := by
  refine harmless_of_final fun K D tok _ _ ctx _ => safe_final
    (fun context a => .ofOut context (.mechanismInvalid, a.out)) ?_
    (safe_of_retains fun a => retains_of_ne nofun)
  rcases h with rfl | rfl
  all_goals exact fun _ _ => rfl

/-- `C_SignFinal` without a `C_SignUpdate` returns an error. -/
theorem harmless_no_parts (m : Mechanism) : Harmless m (.parts []) := by
  refine harmless_of_final fun K D tok mech key ctx hstarted =>
    safe_of_retains fun a => retains_of_ne ?_
  obtain ⟨hmultiInit, hrecover⟩ : ctx.multiInit = false ∧ ctx.recover = false := by
    refine Started.invariant (P := fun ctx => ctx.multiInit = false ∧ ctx.recover = false)
      (fun ctx hctx => ?_) (fun part hpart => absurd hpart List.not_mem_nil) hstarted
    obtain ⟨⟨-, hmultiInit, hrecover⟩, -⟩ := signMgrInit_ok hctx
    exact ⟨hmultiInit, hrecover⟩
  cases hauth : ctx.authRequired <;>
    simp [finishOp, signMgrSignFinal, hmultiInit, hrecover, hauth]

/-! ### Messages of zeros -/

section
variable {bs : Nat} {mtok : MacToken K bs} {key : Nat} {param : Option (MacLen bs)}
  {buf : Buf} {outLen : Nat}

/-- Zeros written to zeros. -/
theorem write_replicate_zero (off n : Nat) :
    Buf.write (fun _ => 0) off (replicate n 0) = fun _ => 0 := by
  funext i
  simp only [Buf.write]
  split
  · simp
  · rfl

/-- Zeros read from zeros. -/
theorem read_zeros (off n : Nat) : Buf.read (fun _ => 0) off n = replicate n 0 := by
  simp [Buf.read]

/-- The context after `len` zeros. -/
def zerosContext (len : Fin bs) : DataContext bs where
  data := fun _ => 0
  len := len
  iv := Vector.replicate bs 0

/-- A context of zeros is padded with zeros. -/
theorem padded_zerosContext (len : Fin bs) : (zerosContext len).padded = zerosContext len := by
  rw [DataContext.padded, zerosContext, write_replicate_zero]

/-- The kept zeros and the new ones are at most a block. -/
theorem zeros_le {n : Nat} (hn : n ∣ bs) {len : Fin bs} (hlen : n ∣ len.1) : len.1 + n ≤ bs := by
  obtain ⟨j, hj⟩ := hlen
  obtain ⟨k, hk⟩ := hn
  have hlt : n * j < n * k := hj ▸ hk ▸ len.isLt
  have hle : n * (j + 1) ≤ n * k := Nat.mul_le_mul_left n (Nat.lt_of_mul_lt_mul_left hlt)
  rw [mul_add, mul_one] at hle
  omega

/-- Zeros that do not complete a block are kept. -/
theorem macUpdate_zeros {n : Nat} {len : Fin bs} (hbs : bs < 2 ^ 64) (hlt : len.1 + n < bs) :
    macUpdate mtok key (zerosContext len) (replicate n 0)
      = (.ok, zerosContext ⟨len.1 + n, hlt⟩) := by
  have hcount : (replicate n (0 : UInt8)).length = n := List.length_replicate
  have hshort : (zerosContext len).len + (replicate n (0 : UInt8)).length < bs := by
    rw [hcount]
    exact hlt
  rw [macUpdate, if_neg (by rw [ULONG_MAX]; omega)]
  rw [dif_pos hshort]
  simp only [zerosContext, write_replicate_zero, hcount]

variable {obj : KeyObject K} {context' : DataContext bs} {inData : List UInt8}

/-- Zeros that complete a block go to the token with the kept ones. -/
theorem macUpdate_zeros_block (mtok : MacToken K bs) (key : Nat) {n : Nat} {len : Fin bs}
    (hbs : bs < 2 ^ 64) (heq : len.1 + n = bs) :
    macUpdate mtok key (zerosContext len) (replicate n 0) = match mtok.findInMap key with
        | .error f => (f.rc, zerosContext len)
        | .ok obj =>
          match mtok.tMac obj.value (replicate bs 0) (Vector.replicate bs 0) with
          | (some f, iv) => (f.rc, { zerosContext len with iv := iv })
          | (none, iv)   => (.ok, ⟨fun _ => 0, ⟨0, len.pos⟩, iv⟩) := by
  have hcount : (replicate n (0 : UInt8)).length = n := List.length_replicate
  have htotal : (zerosContext len).len + (replicate n (0 : UInt8)).length = bs := by
    rw [hcount]
    exact heq
  rw [macUpdate, if_neg (by rw [ULONG_MAX]; omega)]
  rw [dif_neg (by omega)]
  have hcipher : (zerosContext len).data.read 0 (zerosContext len).len ++
      (replicate n (0 : UInt8)).take (bs - (zerosContext len).len) = replicate bs 0 := by
    show Buf.read (fun _ => 0) 0 len.1 ++ (replicate n (0 : UInt8)).take (bs - len.1) = _
    rw [read_zeros, List.take_replicate, min_eq_left (by omega), ← List.replicate_add,
      Nat.add_sub_cancel' len.isLt.le]
  simp only [htotal, Nat.mod_self, Nat.sub_zero, hcipher]
  rfl

/-- The final function of a context of kept zeros. -/
theorem macSignFinal_zeros {len : Fin bs} (hpos : 0 < len.1) :
    macSignFinal mtok key param (zerosContext len) ⟨some buf, outLen⟩
      = if outLen < macLenOf param then
          ⟨.bufferTooSmall, some (zerosContext len), ⟨some buf, macLenOf param⟩⟩
        else
          match mtok.findInMap key with
          | .error f => ⟨f.rc, some (zerosContext len), ⟨some buf, outLen⟩⟩
          | .ok obj =>
            match mtok.tMac obj.value (replicate bs 0) (Vector.replicate bs 0) with
            | (some f, iv) => ⟨f.rc, some { zerosContext len with iv := iv }, ⟨some buf, outLen⟩⟩
            | (none, iv) =>
              ⟨.ok, none, ⟨some (buf.write 0 (iv.toList.take (macLenOf param))),
                macLenOf param⟩⟩ := by
  have hread : (zerosContext len).data.read 0 bs = replicate bs 0 := read_zeros 0 bs
  have hlen : (zerosContext len).len = len := rfl
  simp only [macSignFinal, padded_zerosContext, hread, hlen, if_pos hpos]
  rfl

variable {context : DataContext bs}

/-- A message that is not whole blocks is signed in parts. -/
theorem macSign_of_update (hmod : inData.length % bs ≠ 0)
    (hupdate : macUpdate mtok key context inData = (.ok, context')) :
    macSign mtok key param context inData ⟨some buf, outLen⟩
      = macSignFinal mtok key param context' ⟨some buf, outLen⟩ := by
  simp only [macSign, if_pos hmod, hupdate]

/-- An error of its first part is returned. -/
theorem macSign_of_update_error (hmod : inData.length % bs ≠ 0) {rc : CkRv}
    (hupdate : macUpdate mtok key context inData = (rc, context')) (hrc : rc ≠ .ok) :
    macSign mtok key param context inData ⟨some buf, outLen⟩
      = ⟨rc, some context', ⟨some buf, outLen⟩⟩ := by
  simp only [macSign, if_pos hmod, hupdate]

/-- A proper divisor of the block size is not whole blocks. -/
theorem zeros_mod_ne_zero {n : Nat} (hn : n ∣ bs) (hlt : n < bs) :
    (replicate n (0 : UInt8)).length % bs ≠ 0 := by
  have hpos : 0 < n := Nat.pos_of_dvd_of_pos hn (Nat.zero_lt_of_lt hlt)
  rw [List.length_replicate, Nat.mod_eq_of_lt hlt]
  exact hpos.ne'

variable {n : Nat} {len : Fin bs} (hbs : bs < 2 ^ 64) (hn : n ∣ bs) (hlt : n < bs)
  (hlen : n ∣ len.1)

include hbs hn hlt hlen

/-- A buffer that is too small for the MAC of zeros: there are more kept zeros. -/
theorem macSign_zeros_small
    (h : (macSign mtok key param (zerosContext len) (replicate n 0) ⟨some buf, outLen⟩).rc
      = .bufferTooSmall) :
    ∃ len' : Fin bs, n ∣ len'.1 ∧
      macSign mtok key param (zerosContext len) (replicate n 0) ⟨some buf, outLen⟩
        = ⟨.bufferTooSmall, some (zerosContext len'), ⟨some buf, macLenOf param⟩⟩ := by
  have hmod := zeros_mod_ne_zero hn hlt
  rcases Nat.lt_or_eq_of_le (zeros_le hn hlen) with hshort | hblock
  · have hpos : 0 < len.1 + n := Nat.add_pos_right _ (Nat.pos_of_dvd_of_pos hn len.pos)
    rw [macSign_of_update hmod (macUpdate_zeros hbs hshort), macSignFinal_zeros hpos] at h ⊢
    split at h
    · rename_i hsmall
      exact ⟨⟨len.1 + n, hshort⟩, Nat.dvd_add hlen (Nat.dvd_refl n), if_pos hsmall⟩
    · split at h
      · exact absurd h (Failure.rc_ne_bufferTooSmall _)
      · split at h
        · exact absurd h (Failure.rc_ne_bufferTooSmall _)
        · cases h
  · -- A full block: either the token fails, or there is nothing left to be compared.
    exfalso
    have hupdate := macUpdate_zeros_block mtok key hbs hblock
    rcases hkey : mtok.findInMap key with f | obj <;> rw [hkey] at hupdate
    · rw [macSign_of_update_error hmod hupdate f.rc_ne_ok] at h
      exact f.rc_ne_bufferTooSmall h
    · dsimp only at hupdate
      rcases hmac : mtok.tMac obj.value (replicate bs 0) (Vector.replicate bs 0) with ⟨_ | f, iv⟩
      · rw [hmac] at hupdate
        rw [macSign_of_update hmod hupdate] at h
        cases h
      · rw [hmac] at hupdate
        rw [macSign_of_update_error hmod hupdate f.rc_ne_ok] at h
        exact f.rc_ne_bufferTooSmall h

/-- A MAC of zeros that does not fail is that of a block of zeros, whatever is kept. -/
theorem macSign_zeros_ok (houtLen : macLenOf param ≤ outLen) {iv : Vector UInt8 bs}
    (hkey : mtok.findInMap key = .ok obj)
    (hmac : mtok.tMac obj.value (replicate bs 0) (Vector.replicate bs 0) = (none, iv)) :
    macSign mtok key param (zerosContext len) (replicate n 0) ⟨some buf, outLen⟩
      = ⟨.ok, none, ⟨some (buf.write 0 (iv.toList.take (macLenOf param))), macLenOf param⟩⟩ := by
  have hmod := zeros_mod_ne_zero hn hlt
  rcases lt_or_eq_of_le (zeros_le hn hlen) with hshort | hblock
  · have hpos : 0 < len.1 + n := Nat.add_pos_right _ (Nat.pos_of_dvd_of_pos hn len.pos)
    rw [macSign_of_update hmod (macUpdate_zeros hbs hshort), macSignFinal_zeros hpos,
      if_neg houtLen.not_gt, hkey]
    dsimp only
    rw [hmac]
  · have hupdate := macUpdate_zeros_block mtok key hbs hblock
    rw [hkey] at hupdate
    dsimp only at hupdate
    rw [hmac] at hupdate
    rw [macSign_of_update hmod hupdate]
    rfl

omit hlen

/-- If the first call succeeds, the buffer is large enough and the token does not fail. -/
theorem macSign_zeros_first [NeZero bs]
    (h : (macSign mtok key param (DataContext.zero bs) (replicate n 0) ⟨some buf, outLen⟩).rc
      = .ok) :
    macLenOf param ≤ outLen ∧ ∃ obj iv, mtok.findInMap key = .ok obj ∧
      mtok.tMac obj.value (replicate bs 0) (Vector.replicate bs 0) = (none, iv) := by
  have hpos : 0 < n := Nat.pos_of_dvd_of_pos hn (Nat.zero_lt_of_lt hlt)
  have hshort : (0 : Fin bs).1 + n < bs := by rwa [Fin.val_zero, zero_add]
  have hupdate : macUpdate mtok key (DataContext.zero bs) (replicate n 0) = _ :=
    macUpdate_zeros hbs hshort
  rw [macSign_of_update (zeros_mod_ne_zero hn hlt) hupdate,
    macSignFinal_zeros (Nat.add_pos_right _ hpos)] at h
  split at h
  · cases h
  · rename_i hlarge
    refine ⟨not_lt.mp hlarge, ?_⟩
    split at h
    · exact absurd h (Failure.rc_ne_ok _)
    · rename_i obj hkey
      split at h
      · exact absurd h (Failure.rc_ne_ok _)
      · exact ⟨obj, _, hkey, ‹_›⟩

/-- The MAC of a message of zeros is safe to repeat if its length divides the block size. -/
theorem safe_macSign_zeros [NeZero bs] :
    Safe (fun context a => macSign mtok key param context (replicate n 0) a.out)
      (DataContext.zero bs) := by
  refine ⟨fun context => ∃ len : Fin bs, n ∣ len.1 ∧ context = zerosContext len,
    ⟨0, Nat.dvd_zero n, rfl⟩, ?_, ?_⟩
  · rintro context a ⟨len, hlen, rfl⟩ hsmall
    obtain ⟨len', hlen', hsign⟩ := macSign_zeros_small hbs hn hlt hlen hsmall
    dsimp only [Attempt.out]
    rw [hsign]
    exact ⟨⟨_, ⟨len', hlen', rfl⟩, rfl⟩, rfl⟩
  · rintro context a ⟨len, hlen, rfl⟩ hok
    obtain ⟨hlarge, obj, iv, hkey, hmac⟩ := macSign_zeros_first hbs hn hlt hok
    have hzero : n ∣ (0 : Fin bs).1 := Nat.dvd_zero n
    have hfirst : macSign mtok key param (DataContext.zero bs) (replicate n 0) a.out = _ :=
      macSign_zeros_ok hbs hn hlt hzero hlarge hkey hmac
    have hagain : macSign mtok key param (zerosContext len) (replicate n 0) a.out = _ :=
      macSign_zeros_ok hbs hn hlt hlen hlarge hkey hmac
    rw [hfirst, hagain]
    exact ⟨rfl, rfl⟩

end

/-- In one call, a MAC is harmless for zeros whose number divides the block size. -/
theorem harmless_mac_zeros {m : MacMechanism} {n : Nat} (hn : n ∣ m.blockSize)
    (hlt : n < m.blockSize) : Harmless (.mac m) (.single (replicate n 0)) := by
  refine harmless_of_sign fun K D tok mech obj ctx hswitch => ?_
  refine ⟨fun context a =>
    macSign (tok.mac m) ctx.key ctx.param context (replicate n 0) a.out, ?_, ?_⟩
  · intro context a
    rw [← macSignSwitch_eq]
    rfl
  · obtain ⟨_, _, hcontext⟩ := bind_eq_ok.mp hswitch
    rw [← (Prod.mk.inj (Except.ok.inj hcontext)).2]
    exact safe_macSign_zeros (by cases m <;> decide) hn hlt

/-! ### Empty messages with PSS -/

section
variable {d : DigestMechanism} {key ulParameterLen : Nat} {param : PssParams}

variable {s : D} {x : Option (DigestContext D)}

/-- A digest that is returned is over. -/
theorem digestMgrDigestFinal_active (tok : Token K D) (s : D) {outLen : Nat}
    (h : getShaSize d ≤ outLen) :
    digestMgrDigestFinal tok false (some ⟨d, true, true, s⟩) outLen = match tok.hashFinal d s with
        | .error f => (.error f.rc, none)
        | .ok hash => (.ok hash, none) := by
  have hlen : ¬ outLen < getShaSize d := h.not_gt
  rcases hfinal : tok.hashFinal d s with f | hash
  · have hsha : shaHashFinal tok false ⟨d, true, true, s⟩ outLen = .error f.rc := by
      simp [shaHashFinal, hlen, hfinal]
    have hf := f.rc_ne_bufferTooSmall
    simp only [digestMgrDigestFinal, if_true, Bool.not_true, Bool.false_eq_true, if_false, hsha]
  · simp [digestMgrDigestFinal, shaHashFinal, hlen, hfinal]

/-- The hash of an active digest is signed, and the digest is over. -/
theorem rsaHashPssSignFinal_active (tok : Token K D) (d : DigestMechanism) (key : Nat)
    (param : PssParams) (ulParameterLen : Nat) (s : D) (salt : List UInt8) (buf : Buf)
    (outLen : Nat) :
    rsaHashPssSignFinal tok d key param ulParameterLen (some ⟨d, true, true, s⟩) salt
        ⟨some buf, outLen⟩
      = match tok.hashFinal d s with
        | .error f => ⟨f.rc, some none, ⟨some buf, outLen⟩⟩
        | .ok hash => .ofOut none
            (signWithRsaPkcsPss tok key param ulParameterLen hash salt ⟨some buf, outLen⟩) := by
  have hdigest := digestMgrDigestFinal_active tok s (le_refl (getShaSize d))
  rcases hfinal : tok.hashFinal d s with f | hash
  · rw [hfinal] at hdigest
    simp [rsaHashPssSignFinal, hdigest]
  · rw [hfinal] at hdigest
    simp [rsaHashPssSignFinal, hdigest, SignResult.ofOut]

/-- A digest without data, or one that the final function starts without data. -/
def EmptyDigest (tok : Token K D) (d : DigestMechanism) (x : Option (DigestContext D)) : Prop :=
  x = none ∨ ∃ s, tok.hashInit d = .ok s ∧ x = some ⟨d, true, true, s⟩

/-- A digest that is over is started again. -/
theorem rsaHashPssUpdate_none (hinit : tok.hashInit d = .ok s) :
    rsaHashPssUpdate tok d none [] = (.ok, some ⟨d, true, true, s⟩) := by
  simp [rsaHashPssUpdate, digestMgrInit, hinit, digestMgrDigestUpdate, shaHashUpdate]

/-- An error of the digest is returned. -/
theorem rsaHashPssUpdate_error {f : Failure} (hinit : tok.hashInit d = .error f) :
    rsaHashPssUpdate tok d none [] = (f.rc, none) := by
  have hf := f.rc_ne_ok
  simp only [rsaHashPssUpdate, digestMgrInit, hinit]

/-- So for an empty message it does not matter that the digest is over. -/
theorem EmptyDigest.rsaHashPssSignFinal_eq (hx : EmptyDigest tok d x) (salt : List UInt8)
    (out : Out) :
    rsaHashPssSignFinal tok d key param ulParameterLen x salt out
      = rsaHashPssSignFinal tok d key param ulParameterLen none salt out := by
  rcases hx with rfl | ⟨s, hinit, rfl⟩
  · rfl
  · simp [rsaHashPssSignFinal, rsaHashPssUpdate_none hinit]

/-- Empty parts keep the digest of nothing. -/
theorem EmptyDigest.update {x' : Option (DigestContext D)} (hx : EmptyDigest tok d x)
    (hupdate : rsaHashPssUpdate tok d x [] = (.ok, x')) : EmptyDigest tok d x' := by
  rcases hx with rfl | ⟨s, hinit, rfl⟩
  · rcases hinit : tok.hashInit d with f | s
    · rw [rsaHashPssUpdate_error hinit] at hupdate
      exact absurd (Prod.mk.inj hupdate).1 f.rc_ne_ok
    · rw [rsaHashPssUpdate_none hinit] at hupdate
      exact .inr ⟨s, hinit, (Prod.mk.inj hupdate).2.symm⟩
  · exact .inr ⟨s, hinit, (Prod.mk.inj hupdate).2.symm⟩

/-- If the buffer is too small for the signature of an empty message, the digest is over. -/
theorem rsaHashPssSignFinal_none_retains {salt : List UInt8} {buf : Buf} {outLen : Nat} :
    Retains none ⟨some buf, outLen⟩
      (rsaHashPssSignFinal tok d key param ulParameterLen none salt ⟨some buf, outLen⟩) := by
  rcases hinit : tok.hashInit d with f | s
  · have hf := f.rc_ne_ok
    have hsmall := f.rc_ne_bufferTooSmall
    simp only [rsaHashPssSignFinal, Option.isSome_none, Bool.false_eq_true, if_false,
      rsaHashPssUpdate_error hinit]
    generalize f.rc = rc at hf hsmall ⊢
    refine retains_of_ne ?_
    cases rc
    case ok => exact absurd rfl hf
    all_goals exact hsmall
  · rw [← EmptyDigest.rsaHashPssSignFinal_eq (.inr ⟨s, hinit, rfl⟩), rsaHashPssSignFinal_active]
    split
    · exact retains_of_ne (Failure.rc_ne_bufferTooSmall _)
    · exact retains_ofOut (signWithRsaPkcsPss_untouched _ _ _ _ _ _ _)

/-- The final function of PSS is safe to repeat for an empty message. -/
theorem EmptyDigest.safe (hx : EmptyDigest tok d x) :
    Safe (fun x a => rsaHashPssSignFinal tok d key param ulParameterLen x a.salt a.out) x := by
  refine ⟨EmptyDigest tok d, hx, fun x' a hx' hsmall => ?_, fun x' a hx' hok => ?_⟩
  · rw [hx'.rsaHashPssSignFinal_eq] at hsmall ⊢
    obtain ⟨hctx, hmem⟩ := rsaHashPssSignFinal_none_retains hsmall
    exact ⟨⟨none, .inl rfl, hctx⟩, hmem⟩
  · rw [hx'.rsaHashPssSignFinal_eq, hx.rsaHashPssSignFinal_eq] at *
    exact ⟨hok, rfl⟩

end

variable {d : DigestMechanism} {hd : d ≠ .md5}

/-- A part that is accepted is one for the mechanism. -/
theorem signMgrSignUpdate_ok {ctx' : SignCtx D m}
    (h : signMgrSignUpdate tok ctx part = (.ok, ctx')) :
    ∃ c : SignCtx D m, c.context = ctx.context ∧
      signUpdateSwitch tok m c part = (.ok, ctx'.context) := by
  unfold signMgrSignUpdate at h
  split at h
  · cases h
  · split at h
    · cases h
    · dsimp only at h
      generalize hc : (if ctx.multiInit = true then ctx
        else { ctx with multi := true, multiInit := true }) = c at h
      split at h
      · cases h
      · obtain ⟨hrc, hctx⟩ := Prod.mk.inj h
        refine ⟨c, ?_, Prod.ext hrc (congrArg SignVerifyContext.context hctx)⟩
        rw [← hc]
        split
        · rfl
        · rfl

/-- In parts, PSS is harmless for an empty message. -/
theorem harmless_pss_empty (hempty : ps.flatten = []) :
    Harmless (.hashRsaPkcsPss d hd) (.parts ps) := by
  refine harmless_of_final fun K D tok mech key ctx hstarted => ?_
  have hdigest : EmptyDigest tok d ctx.context := by
    refine Started.invariant (P := fun ctx : SignCtx D (.hashRsaPkcsPss d hd) =>
      EmptyDigest tok d ctx.context) ?_ ?_ hstarted
    · intro ctx hctx
      obtain ⟨-, obj, hswitch⟩ := signMgrInit_ok hctx
      obtain ⟨_, _, hswitch⟩ := bind_eq_ok.mp hswitch
      obtain ⟨_, _, hswitch⟩ := bind_eq_ok.mp hswitch
      obtain ⟨_, _, hswitch⟩ := bind_eq_ok.mp hswitch
      exact .inl (Prod.mk.inj (Except.ok.inj hswitch)).2.symm
    · intro part hpart ctx ctx' hctx hupdate
      rw [List.flatten_eq_nil_iff.mp hempty part hpart] at hupdate
      obtain ⟨c, hcontext, hswitch⟩ := signMgrSignUpdate_ok hupdate
      exact EmptyDigest.update (hcontext ▸ hctx) hswitch
  exact safe_final _ (fun _ _ => rfl) hdigest.safe

end

end OpenCryptoki.Proofs.Common
