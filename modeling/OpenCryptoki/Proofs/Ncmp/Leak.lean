import OpenCryptoki.Proofs.Ncmp.Ownership

/-!
# `OpenCryptoki.Proofs.Ncmp.Leak`: when ring entries return to FREE

A waiter that runs out of its budget swaps its entry to ABANDONED and leaves it to the
communication thread. That thread takes an ABANDONED entry back only at the end of the
delivery of a response to it, and it delivers only to entries that it found SENT. An entry
that is abandoned before its response arrives is therefore never matched and never freed
(`abandoned_entry_leaks`), and neither is one that is abandoned while it is POSTED. A
waiter whose two swaps both fail returns a timeout without marking the entry at all.

`guarded_run_no_leak` shows that these are the only leaks. Along a run in which a waiter
gives up only while the response to its entry is being delivered, every holder that has
not abandoned its entry is still working on it and every ABANDONED entry is about to be
taken back. Once all calls have returned and all responses are drained, all entries are
FREE.
-/

set_option autoImplicit false

namespace OpenCryptoki.Proofs.Ncmp

open Lib OpenCryptoki.Ncmp Function

variable {σ P C : Type}

/-! ### Quiescent states and the condition on timeouts -/

/-- The communication thread holds a response that it has not finished to route. -/
def HoldsResponse : CommPc → Prop
  | .matchState _ _ _ | .matchOwner _ _ _ | .matchSequence _ _ _ | .unmatched | .copy _ _ _
  | .setLen _ _ | .release _ _ | .publish _ _ | .takeBack _ => True
  | _ => False

/-- No call is in progress, every frame that was sent has had its response drained, and no
entry is POSTED. -/
structure Quiescent (T : Transport σ) (s : Sys σ P C) : Prop where
  resting : ∀ p, (s.prod p).isResting = true
  answered : T.pending s.transport = 0
  routed : ¬ HoldsResponse s.comm
  unposted : ∀ i, (s.ring i).state ≠ .posted

/-- The communication thread delivers a response to entry `i`, which is `x`, or has seen it
SENT and is going to find that the ids match. -/
def DeliversTo (x : Cell P) (i : Fin NCMP_QUEUE_DEPTH) : CommPc → Prop
  | .matchOwner _ hdr j =>
      j = i ∧ x.ownerSess = hdr.sessionId ∧ x.sequenceId = hdr.sequenceId
  | .matchSequence _ hdr j => j = i ∧ x.sequenceId = hdr.sequenceId
  | .copy _ j _ | .setLen _ j | .release _ j | .publish _ j => j = i
  | _ => False

/-- Deliveries to an entry can be recognised. -/
instance (x : Cell P) (i : Fin NCMP_QUEUE_DEPTH) : DecidablePred (DeliversTo x i)
  | .matchOwner _ _ _ => inferInstanceAs (Decidable (_ ∧ _ ∧ _))
  | .matchSequence _ _ _ => inferInstanceAs (Decidable (_ ∧ _))
  | .copy _ j _ | .setLen _ j | .release _ j | .publish _ j => inferInstanceAs (Decidable (j = i))
  | .dispatch | .takeLoad _ | .takeSwap _ | .reserve _ | .readLen _ | .sending _ _ _
  | .sendFailed _ | .requeue _ | .drain | .recv | .matchState _ _ _ | .unmatched
  | .takeBack _ => inferInstanceAs (Decidable False)

def Delivers (s : Sys σ P C) (i : Fin NCMP_QUEUE_DEPTH) : Prop :=
  DeliversTo (s.ring i) i s.comm

/-- The condition on a step of a producer: a waiter that is out of budget abandons its entry
only while a response is being delivered to it, and finds it DONE when it can not abandon
it. -/
def LeavesInTime (s : Sys σ P C) : ProdPc → Prop
  | .giveUpSent _ i => (s.ring i).state = .sent → DeliversTo (s.ring i) i s.comm
  | .giveUpPosted _ i => (s.ring i).state ≠ .posted
  | .giveUpCheck _ i => (s.ring i).state = .done
  | _ => True

/-- Leaving in time can be recognised. -/
instance (s : Sys σ P C) : DecidablePred (LeavesInTime s)
  | .giveUpSent _ _ => inferInstanceAs (Decidable (_ → _))
  | .giveUpPosted _ _ => inferInstanceAs (Decidable (_ ≠ _))
  | .giveUpCheck _ _ => inferInstanceAs (Decidable (_ = _))
  | .idle | .claim _ _ | .encode _ _ _ _ | .store _ _ _ _ | .post _ _ | .rollback _ _ _
  | .waitLoad _ _ _ | .readLen _ _ | .readRsp _ _ _ _ | .release _ _ _ | .returned _ _
  | .rejected _ => inferInstanceAs (Decidable True)

/-- The condition on a step of the system. -/
def GivesUpInTime {T : Transport σ} (s : Sys σ P C) : Action T P C → Prop
  | .prod p _ => LeavesInTime s (s.prod p)
  | .start _ _ | .comm _ => True

/-- Giving up in time can be recognised. -/
instance {T : Transport σ} (s : Sys σ P C) : ∀ a : Action T P C, Decidable (GivesUpInTime s a)
  | .prod p _ => inferInstanceAs (Decidable (LeavesInTime s (s.prod p)))
  | .start _ _ | .comm _ => inferInstanceAs (Decidable True)

/-! ### The invariant -/

/-- Nothing is lost: a holder that has not given up is working on its entry, and an ABANDONED
entry is about to be taken back. -/
structure LeakInv (s : Sys σ P C) : Prop where
  held : ∀ p c i, HeldBy (s.ring i) p c → WorksOn (s.prod p) c i
  abandoned : ∀ i, (s.ring i).state = .abandoned → Delivers s i ∨ s.comm = .takeBack i

variable {i : Fin NCMP_QUEUE_DEPTH} {c : Call} {x y : Cell P}

/-- Only a claim makes a producer the holder of an entry. -/
theorem ProdEffect.heldBy_of {p q : P} {pc : ProdPc} (h : ProdEffect p pc i x y)
    (hy : HeldBy y q c) : HeldBy x q c ∨ q = p := by
  cases h with
  | keep | post _ _ _ _ _ => exact .inl hy
  | claim d k _ _ =>
    injection hy with hhead
    injection hhead with hproc
    exact .inr hproc.symm
  | fill d y hheld _ _ hholders =>
    rw [HeldBy, hholders] at hy
    exact .inl hy
  | rollback d hheld _ | release d hheld _ =>
    rw [HeldBy, hheld.dropHolder_eq] at hy
    cases hy
  | abandon d hheld _ =>
    rw [HeldBy, hheld.markAbandoned_eq] at hy
    cases hy

/-- The communication thread never makes anyone a holder. -/
theorem CommEffect.heldBy_of {q : P} {pc : CommPc} (h : CommEffect pc i x y) (hwf : WF x)
    (hy : HeldBy y q c) : HeldBy x q c := by
  cases h with
  | keep | take _ _ | requeue _ _ | deliver _ _ _ | publish _ _ _ => exact hy
  | takeBack _ hstate =>
    obtain ⟨h, hh, hab, -⟩ := hwf.held (by simp [hstate])
    rw [HeldBy, Cell.dropAbandoned, hh] at hy
    simp [hab.mpr hstate] at hy

/-- A delivery depends on its own entry only. -/
theorem Delivers.congr {s s' : Sys σ P C} (h : Delivers s i) (hcomm : s'.comm = s.comm)
    (howner : (s'.ring i).ownerSess = (s.ring i).ownerSess)
    (hseq : (s'.ring i).sequenceId = (s.ring i).sequenceId) : Delivers s' i := by
  rw [Delivers, hcomm]
  rw [Delivers] at h
  generalize s.comm = pc at h ⊢
  cases pc with
  | matchOwner _ _ _ | matchSequence _ _ _ => simpa only [DeliversTo, howner, hseq] using h
  | _ => exact h

/-! ### Steps of a producer -/

section ProdSteps

variable {p : P} {ring : SlotRing P} {pc : ProdPc}

variable {j : Fin NCMP_QUEUE_DEPTH} {y : Cell P} {c : Call}

/-- An update that keeps the holders of its entry keeps who holds what. -/
theorem heldBy_update_iff {i : Fin NCMP_QUEUE_DEPTH} (h : y.holders = (ring j).holders) :
    HeldBy (update ring j y i) p c ↔ HeldBy (ring i) p c := by
  by_cases hij : i = j
  · subst hij
    rw [update_self, HeldBy, HeldBy, h]
  · rw [update_of_ne hij]

/-- The producer holds only the entry that it works on. -/
def HoldsOnlyWork (p : P) (ring : SlotRing P) (pc : ProdPc) : Prop :=
  ∀ c i, HeldBy (ring i) p c → WorksOn pc c i

/-- A producer that keeps the holders and goes on with the same entry. -/
theorem HoldsOnlyWork.go_on {pc' : ProdPc} (hheld : HoldsOnlyWork p ring pc)
    (hy : y.holders = (ring j).holders) (hpc : ∀ c i, WorksOn pc c i → WorksOn pc' c i) :
    HoldsOnlyWork p (update ring j y) pc' :=
  fun c i h => hpc c i (hheld c i ((heldBy_update_iff hy).mp h))

/-- A producer that gives up the one entry it works on. -/
theorem HoldsOnlyWork.let_go {pc' : ProdPc} (hheld : HoldsOnlyWork p ring pc)
    (hy : ∀ c, ¬ HeldBy y p c) (hpc : ∀ c i, WorksOn pc c i → i = j) :
    HoldsOnlyWork p (update ring j y) pc' := by
  intro c i h
  by_cases hij : i = j
  · subst hij
    rw [update_self] at h
    exact absurd h (hy c)
  · rw [update_of_ne hij] at h
    exact absurd (hpc c i (hheld c i h)) hij

/-- A claim makes the producer hold what it works on. -/
theorem HoldsOnlyWork.claim {k : Nat} (hheld : HoldsOnlyWork p ring (.claim c k)) :
    HoldsOnlyWork p (ncmpQueueClaim p ring c k).1 (ncmpQueueClaim p ring c k).2 := by
  rw [ncmpQueueClaim]
  split
  · rename_i hk
    dsimp only
    split
    · intro d i h
      by_cases hi : i = ⟨k, hk⟩
      · subst hi
        dsimp only at h
        rw [update_self] at h
        have hd : c = d := congrArg Holder.call (List.cons.inj h).1
        split <;> exact ⟨hd, rfl⟩
      · dsimp only at h
        rw [update_of_ne hi] at h
        exact (hheld d i h).elim
    · exact fun d i h => (hheld d i h).elim
  · exact fun d i h => (hheld d i h).elim

/-- Giving up leaves nothing behind. -/
theorem HoldsOnlyWork.giveUp {q : QState} {next : ProdPc} (hheld : HoldsOnlyWork p ring pc)
    (hown : HeldBy (ring j) p c) (hpc : ∀ d i, WorksOn pc d i → i = j)
    (hnext : ∀ d i, WorksOn pc d i → WorksOn next d i) :
    HoldsOnlyWork p (waitGiveUp q ring c j next).1 (waitGiveUp q ring c j next).2 := by
  rw [waitGiveUp]
  split
  · refine hheld.let_go (fun d h => ?_) hpc
    rw [HeldBy, hown.markAbandoned_eq] at h
    cases h
  · exact fun d i h => hnext d i (hheld d i h)

/-- A step of a producer keeps that it holds only the entry it works on, unless it leaves an
entry without having abandoned it. -/
theorem HoldsOnlyWork.step {n : Nat} {r : SlotRing P × ProdPc} (hinv : ProdInv p ring pc)
    (hheld : HoldsOnlyWork p ring pc)
    (hdone : ∀ c i, pc = .giveUpCheck c i → (ring i).state = .done)
    (h : prodStep p n ring pc = some r) : HoldsOnlyWork p r.1 r.2 := by
  cases pc with
  | idle | returned _ _ | rejected _ => cases h
  | claim c k =>
    cases h
    exact hheld.claim
  | encode c i frame k =>
    cases h
    rw [encodeChunk]
    split
    · exact hheld.go_on rfl fun _ _ hw => hw
    · exact hheld
  | store c i frame f =>
    cases h
    cases f <;> exact hheld.go_on rfl fun _ _ hw => hw
  | post c i =>
    cases h
    rw [ncmpQueuePost]
    split
    · exact hheld.go_on rfl fun _ _ hw => hw
    · exact hheld
  | rollback c i rc =>
    -- An error before the post frees the entry.
    cases h
    rw [enqueueRollback, if_pos hinv.2]
    refine hheld.let_go (fun d h => ?_) fun _ _ hw => hw.2.symm
    rw [HeldBy, hinv.1.dropHolder_eq] at h
    cases h
  | waitLoad c i spins =>
    cases h
    intro d j hj
    have hw := hheld d j hj
    rw [waitSpin]
    split
    · exact hw
    · split
      · exact hw
      · split <;> exact hw
  | giveUpSent c i | giveUpPosted c i =>
    -- The entry is abandoned, or its state has changed and the producer goes on with it.
    cases h
    exact hheld.giveUp hinv.1 (fun _ _ hw => hw.2.symm) fun _ _ hw => hw
  | giveUpCheck c i =>
    -- The third check finds the response, by the assumption on the run.
    cases h
    rw [if_pos (hdone c i rfl)]
    exact hheld
  | readLen c i =>
    cases h
    exact hheld
  | readRsp c i len got =>
    cases h
    rw [readChunk]
    split <;> exact hheld
  | release c i got =>
    -- The entry is released with the response read.
    cases h
    rw [waitRelease, if_pos hinv.2.1]
    refine hheld.let_go (fun d h => ?_) fun _ _ hw => hw.2.symm
    rw [HeldBy, hinv.1.dropHolder_eq] at h
    cases h

end ProdSteps

/-! ### Abandoned entries -/

/-- An entry becomes ABANDONED only by the swaps of a waiter that gives up, and its request
does not change then. -/
theorem ProdEffect.abandoned_of {p : P} {pc : ProdPc} (h : ProdEffect p pc i x y)
    (hy : y.state = .abandoned) :
    SameRequest x y ∧ (x.state = .abandoned ∨
      ∃ c, pc = .giveUpSent c i ∧ x.state = .sent ∨
        pc = .giveUpPosted c i ∧ x.state = .posted) := by
  cases h with
  | keep => exact ⟨.refl _, .inl hy⟩
  | abandon c _ hpc => exact ⟨⟨rfl, rfl, rfl, rfl⟩, .inr ⟨c, hpc⟩⟩
  | fill c y _ _ hclaimed => simp [hclaimed] at hy
  | claim _ _ _ _ | post _ _ _ _ _ | rollback _ _ _ | release _ _ _ => cases hy

/-- The communication thread abandons nothing. -/
theorem CommEffect.abandoned_of {pc : CommPc} (h : CommEffect pc i x y)
    (hy : y.state = .abandoned) : x.state = .abandoned := by
  cases h with
  | keep | deliver _ _ _ => exact hy
  | take _ _ | requeue _ _ | publish _ _ _ | takeBack _ _ => cases hy

/-- A delivery to an ABANDONED entry goes on until the entry is taken back. -/
theorem Delivers.commGo {s s' : Sys σ P C} {n : Nat} (hdel : Delivers s i)
    (hab : (s.ring i).state = .abandoned) (h : commGo n s s.comm = some s') :
    Delivers s' i ∨ s'.comm = .takeBack i := by
  rw [Delivers] at hdel
  generalize hpc : s.comm = pc at h hdel
  cases pc with
  | matchOwner rx hdr j =>
    obtain ⟨rfl, howner, hseq⟩ := hdel
    cases h
    left
    rw [Delivers]
    rw [if_pos howner]
    exact ⟨rfl, hseq⟩
  | matchSequence rx hdr j =>
    obtain ⟨rfl, hseq⟩ := hdel
    cases h
    left
    rw [Delivers]
    dsimp only
    rw [if_pos hseq]
    rfl
  | copy rx j k =>
    obtain rfl := hdel
    rw [OpenCryptoki.Ncmp.commGo] at h
    left
    split at h <;> obtain rfl := Option.some.inj h <;> rfl
  | setLen rx j | release rx j =>
    obtain rfl := hdel
    cases h
    exact .inl rfl
  | publish rx j =>
    obtain rfl := hdel
    cases h
    right
    -- The entry was abandoned, so the exchange fails and the communicator takes it back.
    rw [if_neg (by simp [hab])]
  | _ => exact hdel.elim

/-! ### Runs -/

/-- A producer that works on an entry is in a call. -/
theorem WorksOn.not_isResting {pc : ProdPc} (h : WorksOn pc c i) : pc.isResting = false := by
  cases pc <;> first | rfl | exact h.elim

section System

variable {T : Transport σ}

variable {s : Sys σ P C}

section
variable (hown : OwnInv s) (hinv : LeakInv s)
include hown hinv

/-- A step of a producer keeps the invariant. -/
theorem LeakInv.prod [DecidableEq P] {p : P} {n : Nat} {r : SlotRing P × ProdPc}
    (hguard : GivesUpInTime s (.prod p n : Action T P C))
    (h : prodStep p n s.ring (s.prod p) = some r) :
    LeakInv { s with ring := r.1, prod := update s.prod p r.2 } := by
  have heff := (hown.prod_spec h).effect
  refine ⟨fun q c i hq => ?_, fun i hab => ?_⟩
  · dsimp only at hq ⊢
    by_cases hqp : q = p
    · subst hqp
      rw [update_self]
      refine HoldsOnlyWork.step (hown.prods q) (hinv.held q) (fun d j hpc => ?_) h c i hq
      rw [GivesUpInTime, hpc] at hguard
      exact hguard
    · rw [update_of_ne hqp]
      exact hinv.held q c i (((heff i).heldBy_of hq).resolve_right hqp)
  · obtain ⟨hsame, hold | ⟨c, ⟨hpc, hsent⟩ | ⟨hpc, hposted⟩⟩⟩ := (heff i).abandoned_of hab
    · exact (hinv.abandoned i hold).imp_left fun hd => hd.congr rfl hsame.2.1 hsame.2.2.1
    · rw [GivesUpInTime, hpc] at hguard
      have hdel : Delivers s i := hguard hsent
      exact .inl (hdel.congr rfl hsame.2.1 hsame.2.2.1)
    · rw [GivesUpInTime, hpc] at hguard
      exact absurd hposted hguard

/-- A step of the communication thread keeps the invariant. -/
theorem LeakInv.comm {s' : Sys σ P C} {ch : CommChoice T} (h : commStep T s ch = some s') :
    LeakInv s' := by
  have hspec := commStep_spec hown.comm h
  refine ⟨fun q c i hq => ?_, fun i hab => ?_⟩
  · rw [hspec.same.prod]
    exact hinv.held q c i ((hspec.effect i).heldBy_of (hown.cells i) hq)
  · have hold := (hspec.effect i).abandoned_of hab
    cases ch with
    | go n =>
      rcases hinv.abandoned i hold with hdel | hback
      · exact hdel.commGo hold h
      · -- The last step of a delivery has just made the entry FREE.
        rw [commStep, hback] at h
        cases h
        rw [swap_ring_eq hold, update_self] at hab
        cases hab
    | send ch | recv ch =>
      rw [commStep] at h
      have hdel := hinv.abandoned i hold
      rw [Delivers] at hdel
      generalize s.comm = pc at h hdel
      cases pc with
      | sending _ _ _ | recv => simp [DeliversTo] at hdel
      | _ => cases h

/-- A step that meets the condition on timeouts loses no entry. -/
theorem LeakInv.step [DecidableEq P] [DecidableEq C] {s' : Sys σ P C} {a : Action T P C}
    (hguard : GivesUpInTime s a) (h : s.step T a = some s') :
    LeakInv s' := by
  cases a with
  | start p r =>
    rw [Sys.step] at h
    obtain ⟨hrest, ⟨⟩⟩ := Option.ite_none_right_eq_some.mp h
    refine ⟨fun q c i hq => ?_, hinv.abandoned⟩
    have hw := hinv.held q c i hq
    by_cases hqp : q = p
    · subst hqp
      rw [hw.not_isResting] at hrest
      cases hrest
    · dsimp only
      rw [update_of_ne hqp]
      exact hw
  | prod p n =>
    obtain ⟨r, hr, rfl⟩ := Option.map_eq_some_iff.mp h
    exact hinv.prod hown hguard hr
  | comm ch => exact hinv.comm hown h

omit hown hinv in
/-- The invariant holds at the start. -/
theorem LeakInv.of_initial (h : s.Initial) : LeakInv s where
  held p c i hheld := by
    rw [HeldBy, h.unheld i] at hheld
    cases hheld
  abandoned i hab := by
    rw [h.free i] at hab
    cases hab

/-- In a quiescent state in which nothing is lost, every entry is FREE. -/
theorem LeakInv.free_of_quiescent (hq : Quiescent T s) (i : Fin NCMP_QUEUE_DEPTH) :
    (s.ring i).state = .free := by
  by_contra hfree
  obtain ⟨⟨p, c, ab⟩, hh, hab, -⟩ := (hown.cells i).held hfree
  cases ab with
  | false =>
    have hrest := hq.resting p
    rw [(hinv.held p c i hh).not_isResting] at hrest
    cases hrest
  | true =>
    refine hq.routed ?_
    rcases hinv.abandoned i (hab.mp rfl) with hdel | hback
    · rw [Delivers] at hdel
      generalize s.comm = pc at hdel ⊢
      cases pc <;> trivial
    · rw [hback]
      trivial

end

/-- Along every run in which waiters give up only while a response is being delivered to
their entry, all entries are FREE in every quiescent state. -/
theorem guarded_run_no_leak [DecidableEq P] [DecidableEq C] {s t : Sys σ P C}
    {as : List (Action T P C)} (hinit : s.Initial)
    (hguard : Guarded (Sys.step T) GivesUpInTime s as) (hrun : exec (Sys.step T) s as = some t)
    (hq : Quiescent T t) (i : Fin NCMP_QUEUE_DEPTH) : (t.ring i).state = .free := by
  have hinv : OwnInv t ∧ LeakInv t :=
    exec_invariant_guarded (I := fun s => OwnInv s ∧ LeakInv s)
      (fun _ _ _ hinv hg h => ⟨hinv.1.step h, hinv.2.step hinv.1 hg h⟩)
      ⟨.of_initial hinit, .of_initial hinit⟩ hguard hrun
  exact hinv.2.free_of_quiescent hinv.1 hq i

end System

/-! ### A timeout that leaks -/

/-- Process 0 posts a request in entry 0 with a spin budget of 1. -/
def submitsWithBudget : List TwoClients :=
  .start client0 (.exec 0 1 plainRequest NcmpMessage.zero 1) ::
    List.replicate 8 (.prod client0 56)

/-- The request is sent. Process 0 runs out of its budget and abandons the entry. The
communication thread then finds nothing to dispatch, receives the answer and looks for a
SENT entry in vain. -/
def leakingRun : List TwoClients :=
  submitsWithBudget ++ takes 0 ++ [.comm (.send .accept)] ++ List.replicate 3 (.prod client0 0) ++
    List.replicate 35 (.comm (.go 0)) ++ [.comm (.recv (.answer 0 plainAnswer))] ++
    List.replicate 34 (.comm (.go 0))

/-- After this run nobody is in a call, the only response is drained, and entry 0 is still
ABANDONED. -/
theorem abandoned_entry_leaks :
    ∃ t, exec (Sys.step token) Sys.withToken leakingRun = some t ∧ Quiescent token t ∧
      (t.ring 0).state = .abandoned := by
  refine ⟨_, rfl, ⟨?_, rfl, ?_, ?_⟩, rfl⟩
  · decide
  · exact id
  · decide

/-- The same request, but process 0 runs out of its budget when the answer is already being
copied to its entry. -/
def timelyRun : List TwoClients :=
  submitsWithBudget ++ takes 0 ++ [.comm (.send .accept)] ++ List.replicate 35 (.comm (.go 0)) ++
    [.comm (.recv (.answer 0 plainAnswer))] ++ List.replicate 3 (.comm (.go 0)) ++
    List.replicate 3 (.prod client0 0) ++ List.replicate 6 (.comm (.go 56))

/-- A producer that gives up in time, and a free entry. -/
theorem timelyRun_no_leak :
    ∃ t, exec (Sys.step token) Sys.withToken timelyRun = some t ∧
      (t.prod 0).isResting = true ∧ (t.ring 0).state = .free := by
  obtain ⟨t, hrun, hq⟩ : ∃ t, exec (Sys.step token) Sys.withToken timelyRun = some t ∧
      Quiescent token t := by
    refine ⟨_, rfl, ?_, rfl, id, ?_⟩
    · decide
    · decide
  refine ⟨t, hrun, hq.resting 0, ?_⟩
  exact guarded_run_no_leak (Sys.create_initial _ _ _) (by decide +kernel) hrun hq 0

end OpenCryptoki.Proofs.Ncmp
