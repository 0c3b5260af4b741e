import OpenCryptoki.Proofs.Ncmp.Ownership

/-!
# `OpenCryptoki.Proofs.Ncmp.Correlation`: which call gets which response

The communication thread routes a response to the first SENT entry whose `owner_sess` and
`sequence_id` are those of the response. Every client command uses session 0, and every
client numbers its commands from 1 on its own, so two processes that use the same slot
send frames with the same ids. When the token answers the second of them first, the first
process gets the answer (`response_misdelivered`).

`guarded_run_delivers` shows that equal ids are the only cause. Along a run in which a
request is posted only when no other request with its ids is POSTED, SENT, being sent or
unanswered, a call that returns `NCMP_OK` has read the response that the token gave to the
frame of that very call. The invariant `CorrInv` says so at each stage on the way: frames
at the token, the response in the hand of the communication thread, DONE entries and
returned calls.
-/

set_option autoImplicit false
set_option maxRecDepth 4000

namespace OpenCryptoki.Proofs.Ncmp

open Lib OpenCryptoki.Ncmp Function List

variable {P C : Type}

/-! ### Requests in flight -/

/-- The two calls have the same session and sequence id. -/
def SameIds (c d : Call) : Prop :=
  c.sessionId = d.sessionId ∧ c.sequenceId = d.sequenceId

/-- Ids can be compared. -/
instance (c d : Call) : Decidable (SameIds c d) :=
  inferInstanceAs (Decidable (_ ∧ _))

/-- The communication thread is sending the request of entry `i`. -/
def Sends (i : Fin NCMP_QUEUE_DEPTH) : CommPc → Prop
  | .reserve j | .readLen j | .sending j _ _ | .sendFailed j | .requeue j => j = i
  | _ => False

/-- The steps that send an entry can be recognised. -/
instance (i : Fin NCMP_QUEUE_DEPTH) : DecidablePred (Sends i)
  | .reserve j | .readLen j | .sending j _ _ | .sendFailed j | .requeue j =>
      inferInstanceAs (Decidable (j = i))
  | .dispatch | .takeLoad _ | .takeSwap _ | .drain | .recv | .matchState _ _ _
  | .matchOwner _ _ _ | .matchSequence _ _ _ | .unmatched | .copy _ _ _ | .setLen _ _
  | .release _ _ | .publish _ _ | .takeBack _ => inferInstanceAs (Decidable False)

/-- The request of the entry is waiting to be sent, being sent or sent. -/
def Live (pc : CommPc) (i : Fin NCMP_QUEUE_DEPTH) (x : Cell P) : Prop :=
  x.state = .posted ∨ x.state = .sent ∨ Sends i pc

/-- Live requests can be recognised. -/
instance (pc : CommPc) (i : Fin NCMP_QUEUE_DEPTH) (x : Cell P) : Decidable (Live pc i x) :=
  inferInstanceAs (Decidable (_ ∨ _ ∨ _))

/-- The request of call `c` is in the ring or at the token. -/
def InFlight (s : Sys TokenState P C) (c : Call) : Prop :=
  (∃ i, Live s.comm i (s.ring i) ∧ ∃ h ∈ (s.ring i).holders, h.call = c) ∨
    ∃ f, (some c, f) ∈ s.transport.outstanding

/-- No request in flight has the ids of call `c`. -/
def FreshIds (s : Sys TokenState P C) (c : Call) : Prop :=
  (∀ i, Live s.comm i (s.ring i) → ∀ h ∈ (s.ring i).holders, ¬ SameIds h.call c) ∧
    ∀ x ∈ s.transport.outstanding, ∀ d ∈ x.1, ¬ SameIds d c

/-- Fresh ids can be recognised. -/
instance (s : Sys TokenState P C) (c : Call) : Decidable (FreshIds s c) :=
  inferInstanceAs (Decidable (_ ∧ _))

variable {s s' : Sys TokenState P C} {c : Call} {ring : SlotRing P} {st : TokenState} {n : Nat}
  {rx f : List UInt8}

/-- Fresh ids are not those of a call in flight. -/
theorem FreshIds.not_sameIds {d : Call} (h : FreshIds s c) (hd : InFlight s d) : ¬ SameIds d c := by
  rcases hd with ⟨i, hlive, x, hx, rfl⟩ | ⟨f, hf⟩
  · exact h.1 i hlive x hx
  · exact h.2 _ hf d rfl

/-- A producer at `pc` posts only a request with fresh ids. -/
def PostsFresh (s : Sys TokenState P C) : ProdPc → Prop
  | .post c _ => FreshIds s c
  | _ => True

/-- Posts with fresh ids can be recognised. -/
instance (s : Sys TokenState P C) : DecidablePred (PostsFresh s)
  | .post c _ => inferInstanceAs (Decidable (FreshIds s c))
  | .idle | .claim _ _ | .encode _ _ _ _ | .store _ _ _ _ | .rollback _ _ _ | .waitLoad _ _ _
  | .giveUpSent _ _ | .giveUpPosted _ _ | .giveUpCheck _ _ | .readLen _ _ | .readRsp _ _ _ _
  | .release _ _ _ | .returned _ _ | .rejected _ => inferInstanceAs (Decidable True)

/-- The condition on a step: calls are client commands, and a request is posted only when no
other request with its ids is in flight. -/
def FreshClientStep (s : Sys TokenState P C) : Action token P C → Prop
  | .start _ (.exec _ _ _ _ _) => False
  | .prod p _ => PostsFresh s (s.prod p)
  | _ => True

/-- Client steps with fresh ids can be recognised. -/
instance (s : Sys TokenState P C) : ∀ a : Action token P C, Decidable (FreshClientStep s a)
  | .start _ (.exec _ _ _ _ _) => inferInstanceAs (Decidable False)
  | .prod p _ => inferInstanceAs (Decidable (PostsFresh s (s.prod p)))
  | .start _ (.command _ _ _ _ _ _) | .start _ (.commandMp _ _ _ _ _ _) | .comm _ =>
      inferInstanceAs (Decidable True)

/-! ### The invariant -/

/-- The frame of the call carries the ids under which the call is enqueued. -/
def Faithful (c : Call) : Prop :=
  c.req.header.sessionId = c.sessionId ∧ c.req.header.sequenceId = c.sequenceId

/-- The token gave the response `rx` to the frame that call `c` encoded. -/
def Answered (st : TokenState) (c : Call) (rx : List UInt8) : Prop :=
  ∃ f, ncmpWireEncode c.req NCMP_ENTRY_BUF_SIZE = .ok f ∧ (some c, f, rx) ∈ st.answers

/-- The response `rx` belongs to call `c`, and no SENT entry of another call has its ids. -/
structure Routes (ring : SlotRing P) (st : TokenState) (rx : List UInt8) (c : Call) : Prop where
  answered : Answered st c rx
  short : rx.length ≤ NCMP_MAX_FRAME_SIZE
  only : ∀ i h, (ring i).state = .sent → (ring i).holders = [h] → SameIds h.call c → h.call = c

/-- What is known of the response that the communication thread holds. -/
def InHand (ring : SlotRing P) (st : TokenState) : CommPc → Prop
  | .matchState rx hdr _ | .matchOwner rx hdr _ =>
      ∃ c, Routes ring st rx c ∧ hdr.sessionId = c.sessionId ∧ hdr.sequenceId = c.sequenceId
  | .matchSequence rx hdr i =>
      ∃ c, Routes ring st rx c ∧ (hdr.sessionId = c.sessionId ∧ hdr.sequenceId = c.sequenceId) ∧
        (ring i).ownerSess = c.sessionId
  | .copy rx i _ | .setLen rx i | .release rx i | .publish rx i =>
      ∃ c, Routes ring st rx c ∧ (ring i).ownerSess = c.sessionId ∧
        (ring i).sequenceId = c.sequenceId
  | _ => True

/-- What holds at each stage between the post of a request and the return of its call. -/
structure CorrInv (s : Sys TokenState P C) : Prop where
  claiming : ∀ p c k, s.prod p = .claim c k → Faithful c
  holding : ∀ i, ∀ h ∈ (s.ring i).holders, Faithful h.call
  unique : ∀ c d, InFlight s c → InFlight s d → SameIds c d → c = d
  atToken : ∀ o f, (o, f) ∈ s.transport.outstanding →
    ∃ c, o = some c ∧ Faithful c ∧ ncmpWireEncode c.req NCMP_ENTRY_BUF_SIZE = .ok f
  inHand : InHand s.ring s.transport s.comm
  done : ∀ i h, (s.ring i).state = .done → (s.ring i).holders = [h] →
    Answered s.transport h.call ((s.ring i).rsp.read 0 (s.ring i).rspLen.toNat)
  returned : ∀ p c got m, s.prod p = .returned c (.ok (got, m)) → Answered s.transport c got

/-! ### Effects on an entry -/

section Effects

variable {p : P} {pc : ProdPc} {cpc : CommPc} {i : Fin NCMP_QUEUE_DEPTH} {x y : Cell P}
  {h : Holder P}

/-- No step of a producer ends with the entry SENT or DONE, unless it leaves it alone. -/
theorem ProdEffect.eq_of_sent_or_done (heff : ProdEffect p pc i x y)
    (hy : y.state = .sent ∨ y.state = .done) : y = x := by
  cases heff with
  | keep => rfl
  | fill c y _ _ hclaimed => simp [hclaimed] at hy
  | claim _ _ _ _ | post _ _ _ _ _ | rollback _ _ _ | abandon _ _ _ | release _ _ _ =>
    simp at hy

/-- A producer brings a call into an entry only by a claim. -/
theorem ProdEffect.call_of (heff : ProdEffect p pc i x y) (hh : h ∈ y.holders) :
    (∃ h' ∈ x.holders, h'.call = h.call) ∨ ∃ k, pc = .claim h.call k := by
  cases heff with
  | keep | post _ _ _ _ _ => exact .inl ⟨h, hh, rfl⟩
  | claim c k hpc _ =>
    rcases mem_cons.mp hh with rfl | hh
    · exact .inr ⟨k, hpc⟩
    · exact .inl ⟨h, hh, rfl⟩
  | fill c y _ _ _ hholders => exact .inl ⟨h, hholders ▸ hh, rfl⟩
  | rollback c _ _ | release c _ _ => exact .inl ⟨h, (mem_filter.mp hh).1, rfl⟩
  | abandon c _ _ =>
    obtain ⟨h', hmem, rfl⟩ := mem_map.mp hh
    refine .inl ⟨h', hmem, ?_⟩
    split <;> rfl

/-- A request becomes live only when it is posted. -/
theorem ProdEffect.live_of (heff : ProdEffect p pc i x y)
    (hserv : Sends i cpc → InService x.state) (hlive : Live cpc i y) (hh : h ∈ y.holders) :
    (Live cpc i x ∧ ∃ h' ∈ x.holders, h'.call = h.call) ∨ pc = .post h.call i := by
  cases heff with
  | keep => exact .inl ⟨hlive, h, hh, rfl⟩
  | claim c k _ hstate =>
    have hsends : Sends i cpc := by simpa [Live] using hlive
    simp [InService, hstate] at hserv
    exact absurd hsends hserv
  | fill c y _ hstate hclaimed _ =>
    have hsends : Sends i cpc := by simpa [Live, hclaimed] using hlive
    simp [InService, hstate] at hserv
    exact absurd hsends hserv
  | post c hpc hheld _ _ =>
    rw [show x.holders = _ from hheld, mem_singleton] at hh
    subst hh
    exact .inr hpc
  | rollback c hheld _ | release c hheld _ =>
    rw [hheld.dropHolder_eq] at hh
    cases hh
  | abandon c hheld hpc =>
    rw [hheld.markAbandoned_eq, mem_singleton] at hh
    subst hh
    have hsends : Sends i cpc := by simpa [Live] using hlive
    exact .inl ⟨.inr (.inr hsends), ⟨p, c, false⟩, by simp [show x.holders = _ from hheld], rfl⟩

section
variable (heff : CommEffect cpc i x y)
include heff

/-- The communication thread brings no call into an entry. -/
theorem CommEffect.mem_of (hh : h ∈ y.holders) : h ∈ x.holders := by
  cases heff with
  | keep | take _ _ | requeue _ _ | deliver _ _ _ | publish _ _ _ => exact hh
  | takeBack _ _ => exact (mem_filter.mp hh).1

/-- The communication thread makes an entry POSTED or SENT only from one of these states. -/
theorem CommEffect.posted_or_sent_of (hy : y.state = .posted ∨ y.state = .sent) :
    x.state = .posted ∨ x.state = .sent := by
  cases heff with
  | keep | deliver _ _ _ => exact hy
  | take _ hstate => exact .inl hstate
  | requeue _ hstate => exact .inr hstate
  | publish _ _ _ | takeBack _ _ => simp at hy

/-- An entry becomes SENT only when the communication thread takes it. -/
theorem CommEffect.sent_of (hpc : ∀ j, cpc ≠ .takeSwap j) (hy : y.state = .sent) :
    x.state = .sent ∧ y.holders = x.holders := by
  cases heff with
  | keep | deliver _ _ _ => exact ⟨hy, rfl⟩
  | take htake _ => exact absurd htake (hpc i)
  | requeue _ _ | publish _ _ _ | takeBack _ _ => simp at hy

/-- An entry becomes DONE only when the communication thread publishes a response to it. -/
theorem CommEffect.done_of (hy : y.state = .done) :
    y = x ∨ x.state = .sent ∧ y = { x with state := .done } ∧ ∃ rx, cpc = .publish rx i := by
  cases heff with
  | keep => exact .inl rfl
  | deliver b len hserv =>
    rw [show x.state = .done from hy] at hserv
    simp [InService] at hserv
  | publish rx hpc hstate => exact .inr ⟨hstate, rfl, rx, hpc⟩
  | take _ _ | requeue _ _ | takeBack _ _ => simp at hy

end

end Effects

/-- An entry that is being sent is in service. -/
theorem CommInv.inService_of_sends {pc : CommPc} {i : Fin NCMP_QUEUE_DEPTH} (hinv : CommInv ring pc)
    (hsends : Sends i pc) : InService (ring i).state := by
  cases pc with
  | reserve j | readLen j | sendFailed j | requeue j =>
    obtain rfl := hsends
    exact hinv
  | sending j len got =>
    obtain rfl := hsends
    exact hinv.1
  | _ => exact hsends.elim

/-- What the communication thread knows of the entry it is delivering to stays true. -/
theorem InHand.kept {ring' : SlotRing P} {pc : CommPc} (hown : CommInv ring pc)
    (hkept : ∀ i, KeptForComm (ring i) (ring' i))
    (hroutes : ∀ rx c, Routes ring st rx c → Routes ring' st rx c) (h : InHand ring st pc) :
    InHand ring' st pc := by
  have hids (i : Fin NCMP_QUEUE_DEPTH) (hserv : InService (ring i).state) :
      (ring' i).ownerSess = (ring i).ownerSess ∧ (ring' i).sequenceId = (ring i).sequenceId := by
    rcases hkept i hserv with hy | ⟨-, c, hy⟩ <;> rw [hy] <;> exact ⟨rfl, rfl⟩
  cases pc with
  | matchState rx hdr i | matchOwner rx hdr i =>
    obtain ⟨c, hr, hrest⟩ := h
    exact ⟨c, hroutes rx c hr, hrest⟩
  | matchSequence rx hdr i =>
    obtain ⟨c, hr, hseq, howner⟩ := h
    exact ⟨c, hroutes rx c hr, hseq, (hids i hown).1.trans howner⟩
  | copy rx i k | setLen rx i | release rx i | publish rx i =>
    obtain ⟨c, hr, howner, hseq⟩ := h
    exact ⟨c, hroutes rx c hr, (hids i hown.1).1.trans howner, (hids i hown.1).2.trans hseq⟩
  | _ => trivial

/-! ### Steps of a producer -/

/-- The producer stands at the beginning of its call or has returned a response. -/
def AtEnds : ProdPc → Prop
  | .claim _ _ | .returned _ (.ok _) => True
  | _ => False

variable {r : SlotRing P × ProdPc}

/-- A producer that tries to claim did so before the step, and a call returns a response only
by releasing its entry after it has read that response. -/
theorem prodStep_atEnds {p : P} {pc : ProdPc} (h : prodStep p n ring pc = some r)
    (hr : AtEnds r.2) :
    (∃ c k k', pc = .claim c k ∧ r.2 = .claim c k') ∨ ∃ c i got, pc = .release c i got ∧
        r.2 = .returned c (.ok (got, (ncmpWireDecode got c.rsp).2)) := by
  cases pc with
  | idle | returned _ _ | rejected _ => cases h
  -- A claim may go on to the next entry, and only a release returns a response.
  | claim c k =>
    refine .inl ⟨c, k, k + 1, rfl, ?_⟩
    cases h
    rw [ncmpQueueClaim] at hr ⊢
    split
    · rename_i hk
      simp only [dif_pos hk] at hr
      dsimp only
      split
      · rename_i hfree
        rw [if_pos hfree] at hr
        split at hr <;> exact hr.elim
      · rfl
    · rename_i hk
      rw [dif_neg hk] at hr
      exact hr.elim
  | encode _ _ _ _ =>
    cases h
    rw [encodeChunk] at hr
    split at hr <;> exact hr.elim
  | store _ _ _ f =>
    cases h
    cases f <;> exact hr.elim
  | post _ _ =>
    cases h
    rw [ncmpQueuePost] at hr
    split at hr <;> exact hr.elim
  | giveUpSent _ _ | giveUpPosted _ _ =>
    cases h
    rw [waitGiveUp] at hr
    split at hr <;> exact hr.elim
  | waitLoad _ _ _ =>
    cases h
    rw [waitSpin] at hr
    repeat' split at hr
    all_goals exact hr.elim
  | giveUpCheck _ _ =>
    cases h
    split at hr <;> exact hr.elim
  | readRsp _ _ _ _ =>
    cases h
    rw [readChunk] at hr
    split at hr <;> exact hr.elim
  | rollback _ _ _ | readLen _ _ =>
    cases h
    exact hr.elim
  | release c i got =>
    cases h
    exact .inr ⟨c, i, got, rfl, rfl⟩

/-- A step of a producer that posts only fresh ids keeps the invariant. -/
theorem CorrInv.prod [DecidableEq P] {p : P} (hown : OwnInv s) (hinv : CorrInv s)
    (hguard : PostsFresh s (s.prod p)) (h : prodStep p n s.ring (s.prod p) = some r) :
    CorrInv { s with ring := r.1, prod := update s.prod p r.2 } := by
  have heff := (hown.prod_spec h).effect
  have hflight (c : Call)
      (hc : InFlight { s with ring := r.1, prod := update s.prod p r.2 } c) :
      InFlight s c ∨ ∃ i, s.prod p = .post c i := by
    rcases hc with ⟨i, hlive, x, hx, rfl⟩ | hout
    · obtain ⟨hlive', hx'⟩ | hpost :=
        (heff i).live_of hown.comm.inService_of_sends hlive hx
      · exact .inl (.inl ⟨i, hlive', hx'⟩)
      · exact .inr ⟨i, hpost⟩
    · exact .inl (.inr hout)
  refine ⟨fun q c k hq => ?_, fun i x hx => ?_, fun c d hc hd hids => ?_, hinv.atToken, ?_,
    fun i x hdone hx => ?_, fun q c got m hq => ?_⟩
  · dsimp only at hq
    by_cases hqp : q = p
    · subst hqp
      rw [update_self] at hq
      obtain ⟨d, j, j', hpc, hr⟩ | ⟨_, _, _, _, hr⟩ :=
        prodStep_atEnds h (by rw [hq]; trivial)
      · rw [hr] at hq
        cases hq
        exact hinv.claiming q c j hpc
      · rw [hr] at hq
        cases hq
    · rw [update_of_ne hqp] at hq
      exact hinv.claiming q c k hq
  · obtain ⟨x', hx', hcall⟩ | ⟨k, hpc⟩ := (heff i).call_of hx
    · rw [← hcall]
      exact hinv.holding i x' hx'
    · exact hinv.claiming p _ k hpc
  · -- A request that has just been posted is the only one with its ids.
    rcases hflight c hc, hflight d hd with ⟨hc' | ⟨i, hci⟩, hd' | ⟨j, hdj⟩⟩
    · exact hinv.unique c d hc' hd' hids
    · rw [hdj] at hguard
      exact absurd hids (hguard.not_sameIds hc')
    · rw [hci] at hguard
      exact absurd ⟨hids.1.symm, hids.2.symm⟩ (hguard.not_sameIds hd')
    · rw [hci] at hdj
      cases hdj
      rfl
  · refine InHand.kept hown.comm (fun i => (heff i).keptForComm) (fun rx c hr => ?_)
      hinv.inHand
    refine ⟨hr.answered, hr.short, fun i x hsent hx => ?_⟩
    have hsame := (heff i).eq_of_sent_or_done (.inl hsent)
    dsimp only at hsent hx
    rw [hsame] at hsent hx
    exact hr.only i x hsent hx
  · have hsame := (heff i).eq_of_sent_or_done (.inr hdone)
    dsimp only at hdone hx ⊢
    rw [hsame] at hdone hx ⊢
    exact hinv.done i x hdone hx
  · dsimp only at hq ⊢
    by_cases hqp : q = p
    · subst hqp
      rw [update_self] at hq
      obtain ⟨_, _, _, _, hr⟩ | ⟨d, i, got', hpc, hr⟩ :=
        prodStep_atEnds h (by rw [hq]; trivial)
      · rw [hr] at hq
        cases hq
      · rw [hr] at hq
        cases hq
        have hprod := hown.prods q
        rw [hpc] at hprod
        obtain ⟨hheld, hdone, hgot⟩ := hprod
        rw [hgot]
        exact hinv.done i _ hdone hheld
    · rw [update_of_ne hqp] at hq
      exact hinv.returned q c got m hq

/-! ### Steps of the communication thread -/

/-- The communication thread starts to send only an entry that it has found POSTED. -/
theorem sends_of_commGo {i : Fin NCMP_QUEUE_DEPTH} (h : commGo n s s.comm = some s')
    (hsends : Sends i s'.comm) :
    Sends i s.comm ∨ (s.ring i).state = .posted := by
  generalize s.comm = pc at h ⊢
  cases pc with
  -- An entry begins to be sent only when its `POSTED` state is swapped.
  | takeSwap j =>
    cases h
    split at hsends
    · obtain rfl := hsends
      exact .inr ‹_›
    · exact hsends.elim
  | reserve j | readLen j | sendFailed j =>
    cases h
    exact .inl hsends
  | sending j len got =>
    rw [commGo] at h
    split at h
    · cases h
      exact .inl hsends
    · cases h
  -- After the remaining steps no entry is being sent.
  | copy rx j k =>
    rw [commGo] at h
    split at h <;> obtain rfl := Option.some.inj h <;> exact hsends.elim
  | recv => cases h
  | dispatch | drain | matchOwner _ _ _ | matchSequence _ _ _ | publish _ _ =>
    cases h
    dsimp only at hsends
    split at hsends <;> exact hsends.elim
  | takeLoad j =>
    cases h
    rw [commTakePosted] at hsends
    repeat' split at hsends
    all_goals exact hsends.elim
  | matchState rx hdr j =>
    cases h
    dsimp only at hsends
    rw [commMatchSent] at hsends
    repeat' split at hsends
    all_goals exact hsends.elim
  | requeue _ | unmatched | setLen _ _ | release _ _ | takeBack _ =>
    cases h
    exact hsends.elim

/-- The route of a response through `comm_match_sent` and the delivery. -/
theorem InHand.commGo (hinv : InHand s.ring s.transport s.comm)
    (hroutes : (∀ j, s.comm ≠ .takeSwap j) → ∀ rx c, Routes s.ring s.transport rx c → Routes
      s'.ring s'.transport rx c) (h : commGo n s s.comm = some s') :
    InHand s'.ring s'.transport s'.comm := by
  generalize s.comm = pc at h hinv hroutes
  cases pc with
  -- The response in hand belongs to the call `c`, and each check of an entry keeps that.
  | matchState rx hdr j =>
    obtain ⟨c, hr, hids⟩ := hinv
    have hr' := hroutes (by simp) rx c hr
    cases h
    rw [commMatchSent]
    split
    · split <;> exact ⟨c, hr', hids⟩
    · trivial
  | matchOwner rx hdr j =>
    obtain ⟨c, hr, hids⟩ := hinv
    have hr' := hroutes (by simp) rx c hr
    cases h
    dsimp only
    split
    · rename_i howner
      exact ⟨c, hr', hids, howner.trans hids.1⟩
    · exact ⟨c, hr', hids⟩
  | matchSequence rx hdr j =>
    obtain ⟨c, hr, hids, howner⟩ := hinv
    have hr' := hroutes (by simp) rx c hr
    cases h
    split
    · rename_i hseq
      exact ⟨c, hr', howner, hseq.trans hids.2⟩
    · exact ⟨c, hr', hids⟩
  -- The copy changes the bytes of the entry and not its ids.
  | copy rx j k =>
    obtain ⟨c, hr, howner, hseq⟩ := hinv
    have hr' := hroutes (by simp) rx c hr
    rw [OpenCryptoki.Ncmp.commGo] at h
    split at h
    · cases h
      refine ⟨c, hr', ?_, ?_⟩ <;> dsimp only <;> rw [update_self] <;> assumption
    · cases h
      exact ⟨c, hr', howner, hseq⟩
  | setLen rx j =>
    obtain ⟨c, hr, howner, hseq⟩ := hinv
    have hr' := hroutes (by simp) rx c hr
    cases h
    refine ⟨c, hr', ?_, ?_⟩ <;> dsimp only <;> rw [update_self] <;> assumption
  | release rx j =>
    obtain ⟨c, hr, hids⟩ := hinv
    have hr' := hroutes (by simp) rx c hr
    cases h
    exact ⟨c, hr', hids⟩
  -- In the other states no response is in hand.
  | sending j len got =>
    rw [OpenCryptoki.Ncmp.commGo] at h
    split at h
    · cases h
      trivial
    · cases h
  | recv => cases h
  | dispatch | drain | takeSwap _ | publish _ _ =>
    cases h
    dsimp only
    split <;> trivial
  | takeLoad j =>
    cases h
    rw [commTakePosted]
    split
    · split <;> trivial
    · trivial
  | reserve _ | readLen _ | sendFailed _ | requeue _ | unmatched | takeBack _ =>
    cases h
    trivial

/-- A step without input or output keeps the transport. -/
theorem transport_of_commGo {pc : CommPc} (h : commGo n s pc = some s') :
    s'.transport = s.transport := by
  have hswap (i : Fin NCMP_QUEUE_DEPTH) (old new : QState) (hs : List (Holder P)) :
      (s.swap i old new hs).transport = s.transport := by
    rw [Sys.swap]
    split <;> rfl
  cases pc with
  | sending _ _ _ =>
    rw [commGo] at h
    split at h
    · cases h
      rfl
    · cases h
  | copy _ _ _ =>
    rw [commGo] at h
    split at h <;> obtain rfl := Option.some.inj h <;> rfl
  | recv => cases h
  | takeSwap i | requeue i | publish _ i | takeBack i =>
    cases h
    exact hswap i _ _ _
  | _ =>
    cases h
    rfl

/-- A published response is the one that the token gave to the holder of the entry. -/
theorem Routes.answered_publish {i : Fin NCMP_QUEUE_DEPTH} {h : Holder P} (hown : OwnInv s)
    (hinv : InHand s.ring s.transport s.comm) (hpc : s.comm = .publish rx i)
    (hsent : (s.ring i).state = .sent) (hh : (s.ring i).holders = [h]) :
    Answered s.transport h.call ((s.ring i).rsp.read 0 (s.ring i).rspLen.toNat) := by
  have hcomm := hown.comm
  rw [hpc] at hinv hcomm
  obtain ⟨c, hr, howner, hseq⟩ := hinv
  obtain ⟨-, hread, hlen⟩ := hcomm
  obtain ⟨h', hh', -, hready⟩ := (hown.cells i).held (by simp [hsent])
  rw [hh] at hh'
  cases hh'
  have hready := hready (by simp [hsent])
  have hcall : h.call = c := hr.only i h hsent hh
    ⟨hready.owner.symm.trans howner, hready.sequence.symm.trans hseq⟩
  have hlen' : (s.ring i).rspLen.toNat = rx.length := by
    rw [hlen]
    exact Nat.mod_eq_of_lt (hr.short.trans_lt (by decide))
  rw [hlen', hread, hcall]
  exact hr.answered

/-- Such a step keeps the invariant. -/
theorem CorrInv.commGo (hown : OwnInv s) (hinv : CorrInv s) (h : commGo n s s.comm = some s') :
    CorrInv s' := by
  have hspec := commGo_spec hown.comm h
  have htrans := transport_of_commGo h
  have hflight (c : Call) (hc : InFlight s' c) : InFlight s c := by
    rcases hc with ⟨i, hlive, x, hx, rfl⟩ | hout
    · refine .inl ⟨i, ?_, x, (hspec.effect i).mem_of hx, rfl⟩
      rcases hlive with hposted | hsent | hsends
      · exact ((hspec.effect i).posted_or_sent_of (.inl hposted)).imp_right .inl
      · exact ((hspec.effect i).posted_or_sent_of (.inr hsent)).imp_right .inl
      · exact (sends_of_commGo h hsends).elim (fun hs => .inr (.inr hs)) .inl
    · rw [htrans] at hout
      exact .inr hout
  have hroutes (hpc : ∀ j, s.comm ≠ .takeSwap j) (rx : List UInt8) (c : Call)
      (hr : Routes s.ring s.transport rx c) : Routes s'.ring s'.transport rx c := by
    refine ⟨by rw [htrans]; exact hr.answered, hr.short, fun i x hsent hx => ?_⟩
    obtain ⟨hsent', hholders⟩ := (hspec.effect i).sent_of hpc hsent
    exact hr.only i x hsent' (hholders.symm.trans hx)
  refine ⟨fun q c k hq => ?_, fun i x hx => ?_, fun c d hc hd => ?_, ?_, ?_,
    fun i x hdone hx => ?_, fun q c got m hq => ?_⟩
  · rw [hspec.same.prod] at hq
    exact hinv.claiming q c k hq
  · exact hinv.holding i x ((hspec.effect i).mem_of hx)
  · exact hinv.unique c d (hflight c hc) (hflight d hd)
  · rw [htrans]
    exact hinv.atToken
  · exact hinv.inHand.commGo hroutes h
  · rw [htrans]
    obtain hsame | ⟨hsent, hy, rx, hpc⟩ := (hspec.effect i).done_of hdone
    · rw [hsame] at hdone hx ⊢
      exact hinv.done i x hdone hx
    · rw [hy] at hx ⊢
      exact Routes.answered_publish hown hinv.inHand hpc hsent hx
  · rw [htrans]
    rw [hspec.same.prod] at hq
    exact hinv.returned q c got m hq

/-- A send adds at most the frame that is sent to the frames at the token. -/
theorem tokenSend_spec {c : Option Call} {ch : TokenSend} {r : TokenState × NcmpRc}
    (h : tokenSend st c f ch = some r) :
    r.1.answers = st.answers ∧ ∀ x ∈ r.1.outstanding, x ∈ st.outstanding ∨ x = (c, f) := by
  cases ch with
  | accept =>
    cases h
    exact ⟨rfl, fun x hx => (mem_append.mp hx).imp_right mem_singleton.mp⟩
  | refuse rc =>
    rw [tokenSend] at h
    split at h
    · cases h
    · cases h
      exact ⟨rfl, fun x hx => .inl hx⟩

/-- The frame that is handed to the token is that of the holder of its entry. -/
theorem CorrInv.commSend {ch : token.SendChoice} (hown : OwnInv s) (hinv : CorrInv s)
    (h : commSend token ch s s.comm = some s') : CorrInv s' := by
  have hcomm := hown.comm
  generalize hpc : s.comm = pc at h hcomm
  cases pc with
  | sending i len got =>
    rw [OpenCryptoki.Ncmp.commSend] at h
    split at h
    · cases h
    · rename_i hfull
      obtain ⟨hserv, rfl, hle, hgot⟩ := hcomm
      obtain ⟨x, hx, hframe⟩ := (hown.cells i).sent_frame hserv
      rw [← hle.antisymm (not_lt.mp hfull), ← hgot] at hframe
      have hxmem : x ∈ (s.ring i).holders := by simp [hx]
      rw [hx] at h
      obtain ⟨r, hr, rfl⟩ := Option.map_eq_some_iff.mp h
      obtain ⟨hanswers, hout⟩ := tokenSend_spec hr
      -- The frame that is sent was in flight already, in its entry.
      have hflight (c : Call) (hc : InFlight
          { s with
            transport := r.1
            comm := if r.2 = .ok then .dispatch else .sendFailed i } c) : InFlight s c := by
        rcases hc with ⟨j, hl, y, hy, rfl⟩ | ⟨f, hf⟩
        · refine .inl ⟨j, hl.imp_right (Or.imp_right fun hsends => ?_), y, hy, rfl⟩
          rw [hpc]
          split at hsends
          · exact hsends.elim
          · exact hsends
        · rcases hout _ hf with hf | hf
          · exact .inr ⟨f, hf⟩
          · cases hf
            exact .inl ⟨i, .inr (.inr (by rw [hpc]; rfl)), x, hxmem, rfl⟩
      have hans {c : Call} {rx : List UInt8} (ha : Answered s.transport c rx) :
          Answered r.1 c rx := by
        rw [Answered, hanswers]
        exact ha
      refine ⟨hinv.claiming, hinv.holding, fun c d hc hd =>
        hinv.unique c d (hflight c hc) (hflight d hd), fun o f hf => ?_, ?_,
        fun j y hdone hy => hans (hinv.done j y hdone hy),
        fun q c b m hq => hans (hinv.returned q c b m hq)⟩
      · rcases hout _ hf with hf | hf
        · exact hinv.atToken o f hf
        · cases hf
          exact ⟨x.call, rfl, hinv.holding i x hxmem, hframe⟩
      · split <;> trivial
  | _ => cases h

/-- What a receive brings: nothing, or the response to an outstanding frame. -/
theorem tokenRecv_spec {ch : TokenRecv} {r : TokenState × Except NcmpRc (List UInt8)}
    (h : tokenRecv st ch = some r) :
    (r.1 = st ∧ ∃ rc, r.2 = .error rc) ∨
      ∃ o f rx, (o, f) ∈ st.outstanding ∧ CopiesIds f rx ∧ rx.length ≤ NCMP_MAX_FRAME_SIZE ∧
        r.2 = .ok rx ∧ r.1.answers = (o, f, rx) :: st.answers ∧
        ∀ x ∈ r.1.outstanding, x ∈ st.outstanding := by
  cases ch with
  | fail rc =>
    cases h
    exact .inl ⟨rfl, rc, rfl⟩
  | answer k rx =>
    rw [tokenRecv] at h
    split at h
    · cases h
    · rename_i o f hk
      split at h
      · rename_i hrx
        cases h
        exact .inr ⟨o, f, rx, mem_of_getElem? hk, hrx.2, hrx.1, rfl, rfl,
          fun x hx => mem_of_mem_eraseIdx hx⟩
      · cases h

/-- After a receive nothing is being sent. -/
theorem not_sends_commReceived (i : Fin NCMP_QUEUE_DEPTH) (res : Except NcmpRc (List UInt8)) :
    ¬ Sends i (commReceived res) := by
  cases res with
  | error rc => exact id
  | ok rx =>
    rw [commReceived]
    split <;> exact id

/-- A response that has just been received belongs to the call of its frame, and that call is
the only one in flight with its ids. -/
theorem CorrInv.routes (hinv : CorrInv s) (hout : (some c, f) ∈ s.transport.outstanding)
    (hframe : ncmpWireEncode c.req NCMP_ENTRY_BUF_SIZE = .ok f)
    (hans : (some c, f, rx) ∈ st.answers) (hshort : rx.length ≤ NCMP_MAX_FRAME_SIZE) :
    Routes s.ring st rx c where
  answered := ⟨f, hframe, hans⟩
  short := hshort
  only i x hsent hx hids :=
    hinv.unique x.call c (.inl ⟨i, .inr (.inl hsent), x, by simp [hx], rfl⟩) (.inr ⟨f, hout⟩) hids

/-- A receive keeps the invariant. -/
theorem CorrInv.commRecv {ch : token.RecvChoice} (hinv : CorrInv s)
    (h : commRecv token ch s s.comm = some s') : CorrInv s' := by
  generalize hpc : s.comm = pc at h
  cases pc with
  | recv =>
    obtain ⟨r, hr, rfl⟩ := Option.map_eq_some_iff.mp h
    obtain ⟨hsame, rc, herr⟩ | ⟨o, f, rx, hmem, hcopy, hshort, hok, hanswers, hout⟩ :=
      tokenRecv_spec hr
    · rw [hsame, herr]
      refine ⟨hinv.claiming, hinv.holding, fun c d hc hd => ?_, hinv.atToken, trivial, hinv.done,
        hinv.returned⟩
      have hflight (c : Call) (hc : InFlight { s with comm := .dispatch } c) : InFlight s c := by
        rcases hc with ⟨j, hl, hy⟩ | hf
        · exact .inl ⟨j, hl.imp_right (Or.imp_right False.elim), hy⟩
        · exact .inr hf
      exact hinv.unique c d (hflight c hc) (hflight d hd)
    · obtain ⟨c, rfl, hfaith, hframe⟩ := hinv.atToken o f hmem
      have hflight (d : Call) (hd : InFlight
          { s with transport := r.1, comm := commReceived r.2 } d) : InFlight s d := by
        rcases hd with ⟨j, hl, hy⟩ | ⟨g, hg⟩
        · exact .inl ⟨j, hl.imp_right (Or.imp_right fun hs =>
            absurd hs (not_sends_commReceived j r.2)), hy⟩
        · exact .inr ⟨g, hout _ hg⟩
      have hans {d : Call} {b : List UInt8} (ha : Answered s.transport d b) :
          Answered r.1 d b :=
        ha.imp fun g hg => ⟨hg.1, by rw [hanswers]; exact mem_cons_of_mem _ hg.2⟩
      refine ⟨hinv.claiming, hinv.holding, fun d e hd he =>
        hinv.unique d e (hflight d hd) (hflight e he), fun d g hg => hinv.atToken d g (hout _ hg),
        ?_, fun j y hdone hy => hans (hinv.done j y hdone hy),
        fun q d b m hq => hans (hinv.returned q d b m hq)⟩
      rw [hok, commReceived]
      split
      · rename_i hdr hdec
        obtain ⟨-, -, rfl⟩ := (ncmpWireDecodeHeader_eq_ok_iff rx _ hdr).mp hdec
        -- The ids of a response are those of the call whose frame it answers.
        have hids : (frameHeader rx).sessionId = c.sessionId ∧
            (frameHeader rx).sequenceId = c.sequenceId := by
          obtain ⟨-, -, params, -, rfl⟩ := ncmpWireEncode_eq_ok hframe
          have hhdr := frameHeader_frameOf c.req params
          have hsess := congrArg NcmpHeader.sessionId hhdr
          have hseq := congrArg NcmpHeader.sequenceId hhdr
          exact ⟨(hcopy.1.trans hsess).trans hfaith.1, (hcopy.2.trans hseq).trans hfaith.2⟩
        exact ⟨c, hinv.routes hmem hframe (by rw [hanswers]; exact mem_cons_self) hshort,
          hids⟩
      · trivial
  | _ => cases h

/-! ### Runs -/

/-- The start of a call that is no request keeps the invariant. -/
theorem CorrInv.start [DecidableEq P] [DecidableEq C] {p : P} {r : Request C} (hinv : CorrInv s)
    (hr : ∀ a b m n l, r ≠ .exec a b m n l) :
    CorrInv { s with
      clients := (startCall s.slotId s.nextId s.clients r).1
      prod := update s.prod p (startCall s.slotId s.nextId s.clients r).2
      nextId := s.nextId + 1 } := by
  have hstart := startCall_cases s.slotId s.nextId s.clients r
  refine ⟨fun q c k hq => ?_, hinv.holding, hinv.unique, hinv.atToken, hinv.inHand, hinv.done,
    fun q c got m hq => ?_⟩
  · dsimp only at hq
    by_cases hqp : q = p
    · subst hqp
      rw [update_self] at hq
      obtain ⟨rc, hpc⟩ | ⟨_, _, _, _, _, hexec, _⟩ | ⟨seq, opcode, m, out, outCap, hpc⟩ := hstart
      · rw [hpc] at hq
        cases hq
      · exact absurd hexec (hr _ _ _ _ _)
      · rw [hpc] at hq
        cases hq
        exact ⟨rfl, rfl⟩
    · rw [update_of_ne hqp] at hq
      exact hinv.claiming q c k hq
  · dsimp only at hq
    by_cases hqp : q = p
    · subst hqp
      rw [update_self] at hq
      obtain ⟨_, hpc⟩ | ⟨_, _, _, _, _, _, hpc⟩ | ⟨_, _, _, _, _, hpc⟩ := hstart <;>
        rw [hpc] at hq <;> cases hq
    · rw [update_of_ne hqp] at hq
      exact hinv.returned q c got m hq

/-- The invariant holds at the start. -/
theorem CorrInv.of_initial (h : s.Initial) (hout : s.transport.outstanding = []) : CorrInv s where
  claiming p c k hp := by
    rw [h.idle p] at hp
    cases hp
  holding i x hx := by
    rw [h.unheld i] at hx
    cases hx
  unique c d hc := by
    rcases hc with ⟨i, -, x, hx, -⟩ | ⟨f, hf⟩
    · rw [h.unheld i] at hx
      cases hx
    · rw [hout] at hf
      cases hf
  atToken o f hf := by
    rw [hout] at hf
    cases hf
  inHand := by
    rw [h.comm]
    trivial
  done i x hdone := by
    rw [h.free i] at hdone
    cases hdone
  returned p c got m hp := by
    rw [h.idle p] at hp
    cases hp

/-- A client step that posts only fresh ids keeps the invariant. -/
theorem CorrInv.step [DecidableEq P] [DecidableEq C] {a : Action token P C} (hown : OwnInv s)
    (hinv : CorrInv s) (hguard : FreshClientStep s a) (h : s.step token a = some s') :
    CorrInv s' := by
  cases a with
  | start p r =>
    rw [Sys.step] at h
    obtain ⟨-, ⟨⟩⟩ := Option.ite_none_right_eq_some.mp h
    refine hinv.start fun a b m n l hr => ?_
    subst hr
    exact hguard
  | prod p n =>
    obtain ⟨r, hr, rfl⟩ := Option.map_eq_some_iff.mp h
    exact hinv.prod hown hguard hr
  | comm ch =>
    cases ch with
    | go n => exact hinv.commGo hown h
    | send ch => exact hinv.commSend hown h
    | recv ch => exact hinv.commRecv h

/-- Along every run of client commands in which a request is posted only when no other request
with its ids is in flight, a call that returns `NCMP_OK` has read the response that the token
gave to the frame of that call. -/
theorem guarded_run_delivers [DecidableEq P] [DecidableEq C] {s t : Sys TokenState P C}
    {as : List (Action token P C)} (hinit : s.Initial) (hout : s.transport.outstanding = [])
    (hguard : Guarded (Sys.step token) FreshClientStep s as)
    (hrun : exec (Sys.step token) s as = some t) {p : P} {c : Call} {got : List UInt8}
    {m : NcmpMessage} (hret : t.prod p = .returned c (.ok (got, m))) :
    Answered t.transport c got := by
  have hinv : OwnInv t ∧ CorrInv t :=
    exec_invariant_guarded (I := fun s => OwnInv s ∧ CorrInv s)
      (fun _ _ _ hinv hg h => ⟨hinv.1.step h, hinv.2.step hinv.1 hg h⟩)
      ⟨.of_initial hinit, .of_initial hinit hout⟩ hguard hrun
  exact hinv.2.returned p c got m hret

/-! ### Two clients with the same ids -/

/-- The communication thread finds nothing more to dispatch, receives an answer to frame `k`
and delivers it to entry 0. -/
def delivers (k : Nat) : List TwoClients :=
  List.replicate 35 (.comm (.go 0)) ++ [.comm (.recv (.answer k plainAnswer))] ++
    List.replicate 8 (.comm (.go 56))

/-- Both processes post their first command and both frames are sent. The token answers the
frame of process 1, and process 0 reads the answer. -/
def crossedRun : List TwoClients :=
  submits client0 0 ++ submits client1 1 ++ takes 0 ++ [.comm (.send .accept)] ++ takes 1 ++
    [.comm (.send .accept)] ++ delivers 1 ++ List.replicate 5 (.prod client0 56)

/-- Call 0 returns `NCMP_OK` with a response that the token gave to call 1, and the token has
given no response to call 0. -/
theorem response_misdelivered :
    ∃ t c m, exec (Sys.step token) Sys.withToken crossedRun = some t ∧
      t.prod 0 = .returned c (.ok (plainAnswer, m)) ∧ c.id = 0 ∧
      t.transport.answers.map (fun x => x.1.map Call.id) = [some 1] ∧
      ¬ Answered t.transport c plainAnswer := by
  obtain ⟨t, c, m, hrun, hret, hid, hans⟩ : ∃ t c m,
      exec (Sys.step token) Sys.withToken crossedRun = some t ∧
      t.prod 0 = .returned c (.ok (plainAnswer, m)) ∧ c.id = 0 ∧
      t.transport.answers.map (fun x => x.1.map Call.id) = [some 1] :=
    ⟨_, _, _, rfl, rfl, rfl, rfl⟩
  refine ⟨t, c, m, hrun, hret, hid, hans, ?_⟩
  rintro ⟨f, -, hmem⟩
  have hmem' := mem_map_of_mem (f := fun x => x.1.map Call.id) hmem
  rw [hans] at hmem'
  simp [hid] at hmem'

/-- Process 0 alone: its command is answered, and it reads the answer. -/
def singleRun : List TwoClients :=
  submits client0 0 ++ takes 0 ++ [.comm (.send .accept)] ++ delivers 0 ++
    List.replicate 5 (.prod client0 56)

/-- One call, and the answer to its own request. -/
theorem singleRun_delivers :
    ∃ t c m, exec (Sys.step token) Sys.withToken singleRun = some t ∧
      t.prod 0 = .returned c (.ok (plainAnswer, m)) ∧ Answered t.transport c plainAnswer := by
  obtain ⟨t, c, m, hrun, hret⟩ : ∃ t c m,
      exec (Sys.step token) Sys.withToken singleRun = some t ∧
      t.prod 0 = .returned c (.ok (plainAnswer, m)) := ⟨_, _, _, rfl, rfl⟩
  exact ⟨t, c, m, hrun, hret, guarded_run_delivers (Sys.create_initial _ _ _) rfl
    (by decide +kernel) hrun hret⟩

end OpenCryptoki.Proofs.Ncmp
