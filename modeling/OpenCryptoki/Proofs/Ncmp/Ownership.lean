import OpenCryptoki.Lib.Run
import OpenCryptoki.Ncmp.CommThread
import OpenCryptoki.Proofs.Ncmp.Wire

/-!
# `OpenCryptoki.Proofs.Ncmp.Ownership`: who owns a ring entry

`ProdEffect` lists what a step of a producer can do to a ring entry and `CommEffect` what
the communication thread can do to it, each with the state in which it happens. Both lists
rest on the invariant `OwnInv`, which ties the state of an entry to the program counters of
the parties that use it:

* an entry that is not FREE has exactly one holder, and once it is POSTED its request is
  complete (`WF`);
* a producer that fills an entry holds it while it is CLAIMED, one that waits holds it in
  one of the states POSTED, SENT and DONE, and one that reads a response holds it while it
  is DONE (`ProdInv`);
* the communication thread sends and delivers only for entries that are SENT or, after a
  timeout, ABANDONED (`CommInv`).

`ownInv_exec` says that the invariant holds in every reachable state, for every transport.
`ring_exclusive` reads the ownership discipline of the ring off it.
-/

set_option autoImplicit false

namespace OpenCryptoki.Proofs.Ncmp

open Lib OpenCryptoki.Ncmp Function

variable {σ P C : Type}

/-! ### The invariant -/

/-- The one holder of the entry is call `c` of producer `p`, which has not given up. -/
def HeldBy (x : Cell P) (p : P) (c : Call) : Prop :=
  x.holders = [⟨p, c, false⟩]

/-- The frame of call `c` stands in the request buffer. -/
def HasFrame (x : Cell P) (c : Call) (frame : List UInt8) : Prop :=
  ncmpWireEncode c.req NCMP_ENTRY_BUF_SIZE = .ok frame ∧ x.req.read 0 frame.length = frame

/-- The request of call `c` is complete: its frame and the fields that describe it. -/
structure Ready (x : Cell P) (c : Call) : Prop where
  frame : ∃ frame, HasFrame x c frame ∧ x.reqLen = UInt32.ofNat frame.length
  owner : x.ownerSess = c.sessionId
  sequence : x.sequenceId = c.sequenceId

/-- The entry is with the communication thread or done: its holder may be waiting. -/
def Waiting (q : QState) : Prop :=
  q = .posted ∨ q = .sent ∨ q = .done

/-- The communication thread may be working on the entry. -/
def InService (q : QState) : Prop :=
  q = .sent ∨ q = .abandoned

/-- What holds of every entry. -/
structure WF (x : Cell P) : Prop where
  free : x.state = .free → x.holders = []
  held : x.state ≠ .free → ∃ h, x.holders = [h] ∧ (h.abandoned = true ↔ x.state = .abandoned) ∧
    (x.state ≠ .claimed → Ready x h.call)

/-- The fields that precede `f` are set. -/
def StoredBefore (x : Cell P) (c : Call) (frame : List UInt8) : EntryField → Prop
  | .ownerSess => True
  | .sequenceId => x.ownerSess = c.sessionId
  | .reqLen => x.ownerSess = c.sessionId ∧ x.sequenceId = c.sequenceId
  | .rspLen => x.ownerSess = c.sessionId ∧ x.sequenceId = c.sequenceId ∧
      x.reqLen = UInt32.ofNat frame.length

/-- What holds of the entry that a producer is working on. -/
def ProdInv (p : P) (ring : SlotRing P) : ProdPc → Prop
  | .idle | .claim _ _ | .returned _ _ | .rejected _ => True
  | .encode c i frame k =>
      HeldBy (ring i) p c ∧ (ring i).state = .claimed ∧
        ncmpWireEncode c.req NCMP_ENTRY_BUF_SIZE = .ok frame ∧
        k ≤ frame.length ∧ (ring i).req.read 0 k = frame.take k
  | .store c i frame f =>
      HeldBy (ring i) p c ∧ (ring i).state = .claimed ∧ HasFrame (ring i) c frame ∧
        StoredBefore (ring i) c frame f
  | .post c i => HeldBy (ring i) p c ∧ (ring i).state = .claimed ∧ Ready (ring i) c
  | .rollback c i _ => HeldBy (ring i) p c ∧ (ring i).state = .claimed
  | .waitLoad c i _ | .giveUpSent c i | .giveUpPosted c i | .giveUpCheck c i =>
      HeldBy (ring i) p c ∧ Waiting (ring i).state
  | .readLen c i => HeldBy (ring i) p c ∧ (ring i).state = .done
  | .readRsp c i len got =>
      HeldBy (ring i) p c ∧ (ring i).state = .done ∧ len = (ring i).rspLen.toNat ∧
        got.length ≤ len ∧ got = (ring i).rsp.read 0 got.length
  | .release c i got =>
      HeldBy (ring i) p c ∧ (ring i).state = .done ∧ got = (ring i).rsp.read 0 (ring i).rspLen.toNat

/-- What holds of the entry that the communication thread is working on. -/
def CommInv (ring : SlotRing P) : CommPc → Prop
  | .dispatch | .takeLoad _ | .takeSwap _ | .drain | .recv | .matchState _ _ _ | .unmatched =>
      True
  | .reserve i | .readLen i | .sendFailed i | .requeue i => InService (ring i).state
  | .sending i len got =>
      InService (ring i).state ∧ len = (ring i).reqLen.toNat ∧ got.length ≤ len ∧
        got = (ring i).req.read 0 got.length
  | .matchOwner _ _ i | .matchSequence _ _ i => InService (ring i).state
  | .copy rx i k =>
      InService (ring i).state ∧ k ≤ rx.length ∧ (ring i).rsp.read 0 k = rx.take k
  | .setLen rx i => InService (ring i).state ∧ (ring i).rsp.read 0 rx.length = rx
  | .release rx i | .publish rx i =>
      InService (ring i).state ∧ (ring i).rsp.read 0 rx.length = rx ∧
        (ring i).rspLen = UInt32.ofNat rx.length
  | .takeBack i => (ring i).state = .abandoned

/-- The ownership invariant of the system. -/
structure OwnInv (s : Sys σ P C) : Prop where
  cells : ∀ i, WF (s.ring i)
  prods : ∀ p, ProdInv p s.ring (s.prod p)
  comm : CommInv s.ring s.comm

/-! ### What a step does to an entry -/

/-- What a step of producer `p` at `pc` does to entry `i`, which is `x`. -/
inductive ProdEffect (p : P) (pc : ProdPc) (i : Fin NCMP_QUEUE_DEPTH) (x : Cell P) :
    Cell P → Prop
  | keep : ProdEffect p pc i x x
  | claim (c : Call) (k : Nat) (hpc : pc = .claim c k) (hstate : x.state = .free) :
      ProdEffect p pc i x
        { x with state := .claimed, holders := ⟨p, c, false⟩ :: x.holders }
  | fill (c : Call) (y : Cell P) (hheld : HeldBy x p c) (hstate : x.state = .claimed)
      (hy : y.state = .claimed) (hholders : y.holders = x.holders) (hrsp : y.rsp = x.rsp) :
      ProdEffect p pc i x y
  | post (c : Call) (hpc : pc = .post c i) (hheld : HeldBy x p c) (hstate : x.state = .claimed)
      (hready : Ready x c) :
      ProdEffect p pc i x { x with state := .posted }
  | rollback (c : Call) (hheld : HeldBy x p c) (hstate : x.state = .claimed) :
      ProdEffect p pc i x { x with state := .free, holders := x.dropHolder c }
  | abandon (c : Call) (hheld : HeldBy x p c)
      (hpc : pc = .giveUpSent c i ∧ x.state = .sent ∨ pc = .giveUpPosted c i ∧ x.state = .posted) :
      ProdEffect p pc i x { x with state := .abandoned, holders := x.markAbandoned c }
  | release (c : Call) (hheld : HeldBy x p c) (hstate : x.state = .done) :
      ProdEffect p pc i x { x with state := .free, holders := x.dropHolder c }

/-- What a step of the communication thread at `pc` does to entry `i`, which is `x`. -/
inductive CommEffect (pc : CommPc) (i : Fin NCMP_QUEUE_DEPTH) (x : Cell P) : Cell P → Prop
  | keep : CommEffect pc i x x
  | take (hpc : pc = .takeSwap i) (hstate : x.state = .posted) :
      CommEffect pc i x { x with state := .sent }
  | requeue (hpc : pc = .requeue i) (hstate : x.state = .sent) :
      CommEffect pc i x { x with state := .posted }
  | deliver (b : Buf) (len : UInt32) (hstate : InService x.state) :
      CommEffect pc i x { x with rsp := b, rspLen := len }
  | publish (rx : List UInt8) (hpc : pc = .publish rx i) (hstate : x.state = .sent) :
      CommEffect pc i x { x with state := .done }
  | takeBack (hpc : pc = .takeBack i) (hstate : x.state = .abandoned) :
      CommEffect pc i x { x with state := .free, holders := x.dropAbandoned }

/-- Nobody but `q` disturbs an entry that `q` holds: it does not change while `q` fills it
or reads a response from it, and it stays with `q` while `q` waits. -/
def KeptFor (q : P) (x y : Cell P) : Prop :=
  ∀ c, HeldBy x q c → (x.state = .claimed ∨ x.state = .done → y = x) ∧
    (Waiting x.state → HeldBy y q c ∧ Waiting y.state)

/-- All that a producer can do to an entry that is SENT or ABANDONED is to abandon it. -/
def KeptForComm (x y : Cell P) : Prop :=
  InService x.state → y = x ∨
    x.state = .sent ∧ ∃ c, y = { x with state := .abandoned, holders := x.markAbandoned c }

/-- An entry has one holder. -/
theorem HeldBy.unique {x : Cell P} {p q : P} {c d : Call} (hp : HeldBy x p c)
    (hq : HeldBy x q d) : p = q := by
  rw [HeldBy, hp] at hq
  injection hq with h
  injection h

section
variable {x : Cell P} {p : P} {c : Call}

/-- Dropping the holder leaves none. -/
theorem HeldBy.dropHolder_eq (h : HeldBy x p c) : x.dropHolder c = [] := by
  simp [Cell.dropHolder, show x.holders = _ from h]

/-- The holder is marked, and stays. -/
theorem HeldBy.markAbandoned_eq (h : HeldBy x p c) : x.markAbandoned c = [⟨p, c, true⟩] := by
  simp [Cell.markAbandoned, show x.holders = _ from h]

/-- The holder of a well-formed entry that is not FREE, when somebody holds it. -/
theorem WF.ready (hwf : WF x) (hheld : HeldBy x p c) (hfree : x.state ≠ .free)
    (hclaimed : x.state ≠ .claimed) : Ready x c := by
  obtain ⟨h, hh, -, hready⟩ := hwf.held hfree
  rw [show x.holders = _ from hheld] at hh
  injection hh with hh
  subst hh
  exact hready hclaimed

end

section Effects

variable {p q : P} {pc : ProdPc} {cpc : CommPc} {i : Fin NCMP_QUEUE_DEPTH} {x y : Cell P}

/-- Only an entry in service is abandoned. -/
theorem ProdEffect.abandon_state {c : Call}
    (hpc : pc = .giveUpSent c i ∧ x.state = .sent ∨ pc = .giveUpPosted c i ∧ x.state = .posted) :
    x.state = .sent ∨ x.state = .posted :=
  hpc.imp And.right And.right

/-- A producer keeps an entry in order. -/
theorem ProdEffect.wf (h : ProdEffect p pc i x y) (hwf : WF x) : WF y := by
  cases h with
  | keep => exact hwf
  | claim c k _ hfree =>
    refine ⟨fun h => by simp at h, fun _ => ⟨⟨p, c, false⟩, ?_, by simp, by simp⟩⟩
    rw [hwf.free hfree]
  | fill c y hheld hstate hy hholders =>
    refine ⟨fun h => by simp [hy] at h, fun _ => ⟨⟨p, c, false⟩, ?_, by simp [hy], by simp [hy]⟩⟩
    rw [hholders]
    exact hheld
  | post c _ hheld hstate hready =>
    exact ⟨fun h => by simp at h, fun _ =>
      ⟨⟨p, c, false⟩, hheld, by simp, fun _ => ⟨hready.frame, hready.owner, hready.sequence⟩⟩⟩
  | rollback c hheld hstate | release c hheld hstate =>
    exact ⟨fun _ => hheld.dropHolder_eq, fun h => absurd rfl h⟩
  | abandon c hheld hpc =>
    have hstate := ProdEffect.abandon_state hpc
    have hready := hwf.ready hheld (by rcases hstate with h | h <;> simp [h])
      (by rcases hstate with h | h <;> simp [h])
    exact ⟨fun h => by simp at h, fun _ => ⟨⟨p, c, true⟩, hheld.markAbandoned_eq, by simp,
      fun _ => ⟨hready.frame, hready.owner, hready.sequence⟩⟩⟩

/-- A producer leaves the entries that others hold alone. -/
theorem ProdEffect.keptFor (h : ProdEffect p pc i x y) (hwf : WF x) (hne : q ≠ p) :
    KeptFor q x y := by
  intro d hq
  cases h with
  | keep => exact ⟨fun _ => rfl, fun hw => ⟨hq, hw⟩⟩
  | claim c k _ hfree =>
    rw [HeldBy, hwf.free hfree] at hq
    cases hq
  | fill c y hheld | post c _ hheld | rollback c hheld | abandon c hheld | release c hheld =>
    exact absurd (hq.unique hheld) hne

/-- A producer keeps what the communication thread relies on. -/
theorem ProdEffect.keptForComm (h : ProdEffect p pc i x y) : KeptForComm x y := by
  intro hs
  cases h with
  | keep => exact .inl rfl
  | abandon c hheld hpc =>
    rcases ProdEffect.abandon_state hpc with hstate | hstate
    · exact .inr ⟨hstate, c, rfl⟩
    · simp [InService, hstate] at hs
  | claim c k _ hstate | fill c y _ hstate | post c _ _ hstate | rollback c _ hstate
    | release c _ hstate => simp [InService, hstate] at hs

/-- The communication thread keeps an entry in order. -/
theorem CommEffect.wf (h : CommEffect cpc i x y) (hwf : WF x) : WF y := by
  cases h with
  | keep => exact hwf
  | take _ hstate | requeue _ hstate | publish _ _ hstate =>
    obtain ⟨h, hh, hab, hready⟩ := hwf.held (by simp [hstate])
    have hready := hready (by simp [hstate])
    exact ⟨fun h => by simp at h, fun _ => ⟨h, hh, by simpa [hstate] using hab,
      fun _ => ⟨hready.frame, hready.owner, hready.sequence⟩⟩⟩
  | deliver b len hstate =>
    obtain ⟨h, hh, hab, hready⟩ := hwf.held (by rcases hstate with h | h <;> simp [h])
    have hready := hready (by rcases hstate with h | h <;> simp [h])
    exact ⟨fun h => by rcases hstate with h' | h' <;> simp [h'] at h, fun _ => ⟨h, hh, hab,
      fun _ => ⟨hready.frame, hready.owner, hready.sequence⟩⟩⟩
  | takeBack _ hstate =>
    obtain ⟨h, hh, hab, -⟩ := hwf.held (by simp [hstate])
    refine ⟨fun _ => ?_, fun h => absurd rfl h⟩
    simp [Cell.dropAbandoned, hh, hab.mpr hstate]

/-- The communication thread leaves an entry alone while its holder fills it or reads a
response, and keeps it in one of the waiting states otherwise. -/
theorem CommEffect.keptFor (h : CommEffect cpc i x y) : KeptFor q x y := by
  intro d hq
  cases h with
  | keep => exact ⟨fun _ => rfl, fun hw => ⟨hq, hw⟩⟩
  | take _ hstate | requeue _ hstate | publish _ _ hstate =>
    exact ⟨fun h => by simp [hstate] at h, fun _ => ⟨hq, by simp [Waiting]⟩⟩
  | deliver b len hstate =>
    exact ⟨fun h => by rcases hstate with h' | h' <;> simp [h'] at h, fun hw => ⟨hq, hw⟩⟩
  | takeBack _ hstate =>
    exact ⟨fun h => by simp [hstate] at h, fun hw => by simp [Waiting, hstate] at hw⟩

end Effects

/-! ### Steps of a producer -/

/-- A change of one entry that is an effect of `E`, when `E` has the identity for the other
entries. -/
theorem forall_update {E : Fin NCMP_QUEUE_DEPTH → Cell P → Cell P → Prop} {ring : SlotRing P}
    {i : Fin NCMP_QUEUE_DEPTH} {y : Cell P} (heff : E i (ring i) y) (hkeep : ∀ j x, E j x x)
    (j : Fin NCMP_QUEUE_DEPTH) : E j (ring j) (update ring i y j) := by
  by_cases hij : j = i
  · subst hij
    rw [update_self]
    exact heff
  · rw [update_of_ne hij]
    exact hkeep _ _

/-- The invariant of a producer depends on its own entries only. -/
theorem ProdInv.kept {q : P} {ring ring' : SlotRing P} {pc : ProdPc} (hinv : ProdInv q ring pc)
    (h : ∀ i, KeptFor q (ring i) (ring' i)) : ProdInv q ring' pc := by
  cases pc with
  | idle | claim _ _ | returned _ _ | rejected _ => trivial
  | encode c i _ _ | store c i _ _ | post c i | rollback c i _ =>
    have hsame := (h i c hinv.1).1 (.inl (by first | exact hinv.2.1 | exact hinv.2))
    simpa only [ProdInv, hsame] using hinv
  | readLen c i | readRsp c i _ _ | release c i _ =>
    have hsame := (h i c hinv.1).1 (.inr (by first | exact hinv.2.1 | exact hinv.2))
    simpa only [ProdInv, hsame] using hinv
  | waitLoad c i _ | giveUpSent c i | giveUpPosted c i | giveUpCheck c i =>
    exact (h i c hinv.1).2 hinv.2

section ProdSteps

variable {p : P} {ring : SlotRing P} {c : Call} {i : Fin NCMP_QUEUE_DEPTH}

/-- What is proved of every step of a producer. -/
structure ProdSpec (p : P) (ring : SlotRing P) (pc : ProdPc) (r : SlotRing P × ProdPc) :
    Prop where
  effect : ∀ i, ProdEffect p pc i (ring i) (r.1 i)
  inv : ProdInv p r.1 r.2

variable {pc pc' : ProdPc} {frame : List UInt8}

/-- A step that changes one entry. -/
theorem ProdSpec.of_update {y : Cell P} (heff : ProdEffect p pc i (ring i) y)
    (hinv : ProdInv p (update ring i y) pc') :
    ProdSpec p ring pc (update ring i y, pc') :=
  ⟨forall_update heff fun _ _ => .keep, hinv⟩

/-- A step that changes no entry. -/
theorem ProdSpec.of_keep (hinv : ProdInv p ring pc') : ProdSpec p ring pc (ring, pc') :=
  ⟨fun _ => .keep, hinv⟩

/-- A claim takes a free entry or goes on. -/
theorem ncmpQueueClaim_spec (hwf : ∀ i, WF (ring i)) (k : Nat) :
    ProdSpec p ring (.claim c k) (ncmpQueueClaim p ring c k) := by
  rw [ncmpQueueClaim]
  split
  · rename_i hk
    dsimp only
    split
    · rename_i hfree
      refine .of_update (.claim c k rfl hfree) ?_
      have hnone := (hwf ⟨k, hk⟩).free hfree
      split
      · rename_i frame hframe
        simp [ProdInv, HeldBy, hnone, hframe]
      · simp [ProdInv, HeldBy, hnone]
    · exact .of_keep trivial
  · exact .of_keep trivial

/-- A chunk of the request is written. -/
theorem encodeChunk_spec {k : Nat} (n : Nat) (hinv : ProdInv p ring (.encode c i frame k)) :
    ProdSpec p ring (.encode c i frame k) (encodeChunk n ring c i frame k) := by
  obtain ⟨hheld, hstate, hframe, hk, hread⟩ := hinv
  rw [encodeChunk]
  split
  · -- One more chunk: the written part of the buffer grows by it.
    refine .of_update (.fill c _ hheld hstate hstate rfl rfl) ?_
    rw [ProdInv, update_self]
    refine ⟨hheld, hstate, hframe, ?_, ?_⟩
    · rw [List.length_take, List.length_drop]
      omega
    · rw [Buf.read_write_append, hread, take_add_length_chunk]
  · refine .of_keep ⟨hheld, hstate, ⟨hframe, ?_⟩, trivial⟩
    have hlen : frame.length = k := by omega
    rw [hlen, hread, ← hlen, List.take_length]

/-- A field of the entry is written. -/
theorem store_spec {f : EntryField} (hinv : ProdInv p ring (.store c i frame f)) :
    ProdSpec p ring (.store c i frame f)
      (update ring i (f.store c frame (ring i)), f.next c i frame) := by
  obtain ⟨hheld, hstate, hframe, hstored⟩ := hinv
  have heff : ProdEffect p (.store c i frame f) i (ring i) (f.store c frame (ring i)) := by
    cases f <;> exact .fill c _ hheld hstate hstate rfl rfl
  refine .of_update heff ?_
  cases f with
  | ownerSess =>
    rw [EntryField.next, ProdInv, update_self]
    exact ⟨hheld, hstate, hframe, rfl⟩
  | sequenceId =>
    rw [EntryField.next, ProdInv, update_self]
    exact ⟨hheld, hstate, hframe, hstored, rfl⟩
  | reqLen =>
    rw [EntryField.next, ProdInv, update_self]
    exact ⟨hheld, hstate, hframe, hstored.1, hstored.2, rfl⟩
  | rspLen =>
    rw [EntryField.next, ProdInv, update_self]
    exact ⟨hheld, hstate, ⟨frame, hframe, hstored.2.2⟩, hstored.1, hstored.2.1⟩

/-- The entry is posted. -/
theorem ncmpQueuePost_spec (hinv : ProdInv p ring (.post c i)) :
    ProdSpec p ring (.post c i) (ncmpQueuePost ring c i) := by
  obtain ⟨hheld, hstate, hready⟩ := hinv
  rw [ncmpQueuePost, if_pos hstate]
  refine .of_update (.post c rfl hheld hstate hready) ?_
  rw [ProdInv, update_self]
  exact ⟨hheld, .inl rfl⟩

/-- The entry is freed again after an error. -/
theorem enqueueRollback_spec {rc : NcmpRc} (hinv : ProdInv p ring (.rollback c i rc)) :
    ProdSpec p ring (.rollback c i rc) (enqueueRollback ring c i rc) := by
  obtain ⟨hheld, hstate⟩ := hinv
  rw [enqueueRollback, if_pos hstate]
  exact .of_update (.rollback c hheld hstate) trivial

/-- Looking at the state changes nothing. -/
theorem waitSpin_inv {spins : UInt64} (hinv : ProdInv p ring (.waitLoad c i spins)) :
    ProdInv p ring (waitSpin ring c i spins) := by
  rw [waitSpin]
  split
  · rename_i hdone
    exact ⟨hinv.1, hdone⟩
  · split
    · exact hinv
    · split <;> exact hinv

/-- The entry is abandoned if it is still in the state. -/
theorem waitGiveUp_spec {q : QState} {next : ProdPc} (hheld : HeldBy (ring i) p c)
    (hpc : (ring i).state = q → pc = .giveUpSent c i ∧ (ring i).state = .sent ∨
      pc = .giveUpPosted c i ∧ (ring i).state = .posted)
    (hnext : ProdInv p ring next) :
    ProdSpec p ring pc (waitGiveUp q ring c i next) := by
  rw [waitGiveUp]
  split
  · rename_i hstate
    exact .of_update (.abandon c hheld (hpc hstate)) trivial
  · exact .of_keep hnext

variable {got : List UInt8}

/-- A read that goes on where the last one stopped. -/
theorem read_append_read (b : Buf) (m : Nat) (hgot : got = b.read 0 got.length) :
    got ++ b.read got.length m = b.read 0 (got ++ b.read got.length m).length := by
  rw [List.length_append, Buf.length_read, Buf.read_add, ← hgot, zero_add]

/-- Reading the response changes nothing. -/
theorem readChunk_inv {len : Nat} (n : Nat) (hinv : ProdInv p ring (.readRsp c i len got)) :
    ProdInv p ring (readChunk n ring c i len got) := by
  obtain ⟨hheld, hstate, hlen, hle, hgot⟩ := hinv
  rw [readChunk]
  split
  · refine ⟨hheld, hstate, hlen, ?_, read_append_read _ _ hgot⟩
    rw [List.length_append, Buf.length_read]
    omega
  · refine ⟨hheld, hstate, ?_⟩
    rw [← hlen, show len = got.length by omega]
    exact hgot

/-- The entry is released. -/
theorem waitRelease_spec (hinv : ProdInv p ring (.release c i got)) :
    ProdSpec p ring (.release c i got) (waitRelease ring c i got) := by
  obtain ⟨hheld, hstate, -⟩ := hinv
  rw [waitRelease, if_pos hstate]
  exact .of_update (.release c hheld hstate) trivial

/-- A step of a producer has one of the effects of `ProdEffect` and keeps what holds of the
entry that the producer is working on. -/
theorem prodStep_spec {n : Nat} {r : SlotRing P × ProdPc} (hwf : ∀ i, WF (ring i))
    (hinv : ProdInv p ring pc) (h : prodStep p n ring pc = some r) :
    ProdSpec p ring pc r := by
  cases pc with
  | idle | returned _ _ | rejected _ => cases h
  | claim c k => cases h; exact ncmpQueueClaim_spec hwf k
  | encode c i frame k => cases h; exact encodeChunk_spec n hinv
  | store c i frame f => cases h; exact store_spec hinv
  | post c i => cases h; exact ncmpQueuePost_spec hinv
  | rollback c i rc => cases h; exact enqueueRollback_spec hinv
  | waitLoad c i spins => cases h; exact .of_keep (waitSpin_inv hinv)
  | giveUpSent c i => cases h; exact waitGiveUp_spec hinv.1 (fun h => .inl ⟨rfl, h⟩) hinv
  | giveUpPosted c i => cases h; exact waitGiveUp_spec hinv.1 (fun h => .inr ⟨rfl, h⟩) hinv
  | giveUpCheck c i =>
    cases h
    refine .of_keep ?_
    split
    · rename_i hdone
      exact ⟨hinv.1, hdone⟩
    · trivial
  | readLen c i =>
    cases h
    exact .of_keep ⟨hinv.1, hinv.2, rfl, zero_le, rfl⟩
  | readRsp c i len got => cases h; exact .of_keep (readChunk_inv n hinv)
  | release c i got => cases h; exact waitRelease_spec hinv

end ProdSteps

/-! ### Steps of the communication thread -/

/-- An entry in service stays in service. -/
theorem KeptForComm.inService {x y : Cell P} (h : KeptForComm x y) (hx : InService x.state) :
    InService y.state := by
  rcases h hx with rfl | ⟨-, c, rfl⟩
  · exact hx
  · exact .inr rfl

/-- The invariant of the communication thread depends on the entries in service only. -/
theorem CommInv.kept {ring ring' : SlotRing P} {pc : CommPc} (hinv : CommInv ring pc)
    (h : ∀ i, KeptForComm (ring i) (ring' i)) : CommInv ring' pc := by
  cases pc with
  | dispatch | takeLoad _ | takeSwap _ | drain | recv | matchState _ _ _ | unmatched => trivial
  | reserve i | readLen i | sendFailed i | requeue i | matchOwner _ _ i | matchSequence _ _ i =>
    exact (h i).inService hinv
  | sending i len got | copy rx i k | setLen rx i | release rx i | publish rx i =>
    refine ⟨(h i).inService hinv.1, ?_⟩
    -- An abandoned entry keeps its buffers and lengths.
    rcases h i hinv.1 with hy | ⟨-, c, hy⟩ <;> simpa only [hy] using hinv.2
  | takeBack i =>
    rcases h i (.inr hinv) with hy | ⟨hsent, -⟩
    · rw [CommInv, hy]
      exact hinv
    · rw [CommInv] at hinv
      simp [hinv] at hsent

/-- What a step of the communication thread leaves alone. -/
structure SameProducers (s s' : Sys σ P C) : Prop where
  prod : s'.prod = s.prod
  clients : s'.clients = s.clients
  nextId : s'.nextId = s.nextId
  slotId : s'.slotId = s.slotId
  maxInflight : s'.maxInflight = s.maxInflight

/-- What is proved of every step of the communication thread at `pc`. -/
structure CommSpec (pc : CommPc) (s s' : Sys σ P C) : Prop where
  effect : ∀ i, CommEffect pc i (s.ring i) (s'.ring i)
  inv : CommInv s'.ring s'.comm
  same : SameProducers s s'

variable {s s' : Sys σ P C} {old new : QState} {hs : List (Holder P)} {n : Nat}

section
variable {i : Fin NCMP_QUEUE_DEPTH}

/-- A compare and swap has its effect or none. -/
theorem swap_effect {pc : CommPc}
    (h : (s.ring i).state = old → CommEffect pc i (s.ring i)
      { s.ring i with state := new, holders := hs })
    (j : Fin NCMP_QUEUE_DEPTH) :
    CommEffect pc j (s.ring j) ((s.swap i old new hs).ring j) := by
  rw [Sys.swap]
  split
  · rename_i hold
    exact forall_update (h hold) (fun _ _ => .keep) j
  · exact .keep

/-- A compare and swap that succeeds. -/
theorem swap_ring_eq (h : (s.ring i).state = old) :
    (s.swap i old new hs).ring = update s.ring i { s.ring i with state := new, holders := hs } := by
  rw [Sys.swap, if_pos h]

/-- A compare and swap keeps the producers. -/
theorem swap_same (s : Sys σ P C) (i : Fin NCMP_QUEUE_DEPTH) (old new : QState)
    (hs : List (Holder P)) (pc : CommPc) :
    SameProducers s { s.swap i old new hs with comm := pc } := by
  rw [Sys.swap]
  split <;> exact ⟨rfl, rfl, rfl, rfl, rfl⟩

/-- A step that leaves the ring alone. -/
theorem CommSpec.of_ring_eq {pc : CommPc} (hring : s'.ring = s.ring) (hinv : CommInv s.ring s'.comm)
    (hsame : SameProducers s s') : CommSpec pc s s' where
  effect i := by rw [hring]; exact .keep
  inv := by rw [hring]; exact hinv
  same := hsame

variable (ring : SlotRing P)

/-- The search for a posted entry. -/
theorem commTakePosted_inv (i : Nat) : CommInv ring (commTakePosted ring i) := by
  rw [commTakePosted]
  split
  · split <;> trivial
  · trivial

/-- The search for the entry of a response. -/
theorem commMatchSent_inv (rx : List UInt8) (hdr : NcmpHeader) (i : Nat) :
    CommInv ring (commMatchSent ring rx hdr i) := by
  rw [commMatchSent]
  split
  · split
    · rename_i hsent
      exact .inl hsent
    · trivial
  · trivial

/-- What follows a receive. -/
theorem commReceived_inv (res : Except NcmpRc (List UInt8)) : CommInv ring (commReceived res) := by
  cases res with
  | error rc => trivial
  | ok rx =>
    rw [commReceived]
    split <;> trivial

/-- A chunk of the response is copied. -/
theorem commGo_copy_spec {rx : List UInt8} {k : Nat} (hinv : CommInv s.ring (.copy rx i k))
    (h : commGo n s (.copy rx i k) = some s') :
    CommSpec (.copy rx i k) s s' := by
  obtain ⟨hserv, hk, hread⟩ := hinv
  rw [commGo] at h
  split at h
  · cases h
    refine ⟨forall_update (.deliver _ _ hserv) fun _ _ => .keep, ?_, ⟨rfl, rfl, rfl, rfl, rfl⟩⟩
    dsimp only
    rw [CommInv, update_self]
    refine ⟨hserv, ?_, ?_⟩
    · rw [List.length_take, List.length_drop]
      omega
    · rw [Buf.read_write_append, hread, take_add_length_chunk]
  · cases h
    refine .of_ring_eq rfl ⟨hserv, ?_⟩ ⟨rfl, rfl, rfl, rfl, rfl⟩
    have hlen : rx.length = k := by omega
    rw [hlen, hread, ← hlen, List.take_length]

end

/-- A step without input or output. -/
theorem commGo_spec {pc : CommPc} (hinv : CommInv s.ring pc) (h : commGo n s pc = some s') :
    CommSpec pc s s' := by
  cases pc with
  | dispatch | drain =>
    cases h
    refine .of_ring_eq rfl ?_ ⟨rfl, rfl, rfl, rfl, rfl⟩
    split <;> trivial
  | takeLoad i =>
    cases h
    exact .of_ring_eq rfl (commTakePosted_inv _ _) ⟨rfl, rfl, rfl, rfl, rfl⟩
  | takeSwap i =>
    cases h
    refine ⟨swap_effect (.take rfl), ?_, swap_same s i _ _ _ _⟩
    dsimp only
    split
    · rename_i hposted
      rw [swap_ring_eq hposted, CommInv, update_self]
      exact .inl rfl
    · trivial
  | reserve i | sendFailed i | release rx i =>
    cases h
    exact .of_ring_eq rfl hinv ⟨rfl, rfl, rfl, rfl, rfl⟩
  | unmatched =>
    cases h
    exact .of_ring_eq rfl trivial ⟨rfl, rfl, rfl, rfl, rfl⟩
  | readLen i =>
    cases h
    exact .of_ring_eq rfl ⟨hinv, rfl, zero_le, rfl⟩ ⟨rfl, rfl, rfl, rfl, rfl⟩
  | sending i len got =>
    obtain ⟨hserv, hlen, hle, hgot⟩ := hinv
    rw [commGo] at h
    obtain ⟨-, ⟨⟩⟩ := Option.ite_none_right_eq_some.mp h
    refine .of_ring_eq rfl ⟨hserv, hlen, ?_, read_append_read _ _ hgot⟩
      ⟨rfl, rfl, rfl, rfl, rfl⟩
    rw [List.length_append, Buf.length_read]
    omega
  | requeue i =>
    cases h
    exact ⟨swap_effect (.requeue rfl), trivial, swap_same s i _ _ _ _⟩
  | recv => cases h
  | matchState rx hdr i =>
    cases h
    exact .of_ring_eq rfl (commMatchSent_inv _ _ _ _) ⟨rfl, rfl, rfl, rfl, rfl⟩
  | matchOwner rx hdr i =>
    cases h
    refine .of_ring_eq rfl ?_ ⟨rfl, rfl, rfl, rfl, rfl⟩
    split
    · exact hinv
    · trivial
  | matchSequence rx hdr i =>
    cases h
    refine .of_ring_eq rfl ?_ ⟨rfl, rfl, rfl, rfl, rfl⟩
    dsimp only
    split
    · exact ⟨hinv, zero_le, rfl⟩
    · trivial
  | copy rx i k => exact commGo_copy_spec hinv h
  | setLen rx i =>
    cases h
    refine ⟨forall_update (.deliver _ _ hinv.1) fun _ _ => .keep, ?_, ⟨rfl, rfl, rfl, rfl, rfl⟩⟩
    dsimp only
    rw [CommInv, update_self]
    exact ⟨hinv.1, hinv.2, rfl⟩
  | publish rx i =>
    cases h
    refine ⟨swap_effect (.publish rx rfl), ?_, swap_same s i _ _ _ _⟩
    split
    · trivial
    · -- The entry is in service and not SENT, so its holder has abandoned it.
      rename_i hsent
      rw [Sys.swap, if_neg hsent]
      exact hinv.1.resolve_left hsent
  | takeBack i =>
    cases h
    exact ⟨swap_effect (.takeBack rfl), trivial, swap_same s i _ _ _ _⟩

/-- A step of the communication thread. -/
theorem commStep_spec {T : Transport σ} {ch : CommChoice T} (hinv : CommInv s.ring s.comm)
    (h : commStep T s ch = some s') :
    CommSpec s.comm s s' := by
  cases ch with
  | go n => exact commGo_spec hinv h
  | send ch =>
    rw [commStep] at h
    generalize hpc : s.comm = pc at h hinv
    cases pc with
    | sending i len got =>
      rw [commSend] at h
      split at h
      · cases h
      · obtain ⟨r, -, rfl⟩ := Option.map_eq_some_iff.mp h
        refine .of_ring_eq rfl ?_ ⟨rfl, rfl, rfl, rfl, rfl⟩
        split
        · trivial
        · exact hinv.1
    | _ => cases h
  | recv ch =>
    rw [commStep] at h
    generalize hpc : s.comm = pc at h hinv
    cases pc with
    | recv =>
      obtain ⟨r, -, rfl⟩ := Option.map_eq_some_iff.mp h
      exact .of_ring_eq rfl (commReceived_inv _ _) ⟨rfl, rfl, rfl, rfl, rfl⟩
    | _ => cases h

/-! ### Runs of the system -/

/-- The invariant holds at the start. -/
theorem OwnInv.of_initial (h : s.Initial) : OwnInv s where
  cells i := ⟨fun _ => h.unheld i, fun hne => absurd (h.free i) hne⟩
  prods p := by rw [h.idle p]; trivial
  comm := by rw [h.comm]; trivial

/-- How a call starts: it is rejected, or it enters the ring with the arguments of
`ncmp_slot_enqueue` or as a client command. -/
theorem startCall_cases [DecidableEq C] (slotId id : Nat) (clients : C → NcmpClient)
    (r : Request C) :
    (∃ rc, (startCall slotId id clients r).2 = .rejected rc) ∨
      (∃ sess seq req rsp budget, r = .exec sess seq req rsp budget ∧
        (startCall slotId id clients r).2 = .claim ⟨id, sess, seq, req, rsp, budget⟩ 0) ∨
      ∃ seq opcode m out outCap,
        (startCall slotId id clients r).2 = .claim (clientCall id seq opcode m out outCap) 0 := by
  have hsend (cl : C) (opcode : UInt32) (out : Option Buf) (outCap : UInt32)
      (m : Except NcmpRc NcmpMessage) :
      (∃ rc, (startCall.send slotId id clients cl opcode out outCap m).2 = .rejected rc) ∨
        ∃ seq opcode' m' out' outCap', (startCall.send slotId id clients cl opcode out outCap m).2
          = .claim (clientCall id seq opcode' m' out' outCap') 0 := by
    cases m with
    | error rc => exact .inl ⟨rc, rfl⟩
    | ok m =>
      rw [startCall.send]
      split
      · exact .inr ⟨_, _, _, _, _, rfl⟩
      · exact .inl ⟨_, rfl⟩
  cases r with
  | exec sess seq req rsp budget => exact .inr (.inl ⟨sess, seq, req, rsp, budget, rfl, rfl⟩)
  | command cl opcode input inLen out outCap | commandMp cl opcode parts scratch out outCap =>
    exact (hsend _ _ _ _ _).imp_right .inr

/-- A step of a producer, under the invariant. -/
theorem OwnInv.prod_spec {p : P} {r : SlotRing P × ProdPc} (hinv : OwnInv s)
    (h : prodStep p n s.ring (s.prod p) = some r) :
    ProdSpec p s.ring (s.prod p) r :=
  prodStep_spec hinv.cells (hinv.prods p) h

section System

variable [DecidableEq P] [DecidableEq C]

variable {T : Transport σ} {s : Sys σ P C} {a : Action T P C}

/-- Every step of the system keeps the ownership invariant. -/
theorem OwnInv.step {s' : Sys σ P C} (hinv : OwnInv s) (h : s.step T a = some s') : OwnInv s' := by
  cases a with
  | start p r =>
    rw [Sys.step] at h
    obtain ⟨-, ⟨⟩⟩ := Option.ite_none_right_eq_some.mp h
    refine ⟨hinv.cells, fun q => ?_, hinv.comm⟩
    by_cases hq : q = p
    · subst hq
      dsimp only
      rw [update_self]
      obtain ⟨_, hpc⟩ | ⟨_, _, _, _, _, _, hpc⟩ | ⟨_, _, _, _, _, hpc⟩ :=
        startCall_cases s.slotId s.nextId s.clients r <;> rw [hpc] <;> trivial
    · dsimp only
      rw [update_of_ne hq]
      exact hinv.prods q
  | prod p n =>
    obtain ⟨r, hr, rfl⟩ := Option.map_eq_some_iff.mp h
    obtain ⟨heff, hown⟩ := hinv.prod_spec hr
    refine ⟨fun i => (heff i).wf (hinv.cells i), fun q => ?_,
      hinv.comm.kept fun i => (heff i).keptForComm⟩
    · by_cases hq : q = p
      · subst hq
        dsimp only
        rw [update_self]
        exact hown
      · dsimp only
        rw [update_of_ne hq]
        exact (hinv.prods q).kept fun i => (heff i).keptFor (hinv.cells i) hq
  | comm ch =>
    have hspec := commStep_spec hinv.comm h
    refine ⟨fun i => (hspec.effect i).wf (hinv.cells i), fun q => ?_, hspec.inv⟩
    rw [hspec.same.prod]
    exact (hinv.prods q).kept fun i => (hspec.effect i).keptFor

/-- The ownership invariant holds in every reachable state. -/
theorem ownInv_exec {t : Sys σ P C} {as : List (Action T P C)} (hinit : s.Initial)
    (h : exec (Sys.step T) s as = some t) : OwnInv t :=
  exec_invariant (fun _ _ _ => OwnInv.step) (OwnInv.of_initial hinit) h

/-- How a step of the system changes the ring: a call that starts does not, and a producer
and the communication thread have one of their effects on each entry. -/
theorem OwnInv.ring_cases {s' : Sys σ P C} (hinv : OwnInv s) (h : s.step T a = some s') :
    s'.ring = s.ring ∨
      (∃ p n, a = .prod p n ∧ ∀ i, ProdEffect p (s.prod p) i (s.ring i) (s'.ring i)) ∨
      ∃ ch, a = .comm ch ∧ ∀ i, CommEffect s.comm i (s.ring i) (s'.ring i) := by
  cases a with
  | start p r =>
    rw [Sys.step] at h
    split at h
    · cases h
      exact .inl rfl
    · cases h
  | prod p n =>
    obtain ⟨r, hr, rfl⟩ := Option.map_eq_some_iff.mp h
    exact .inr (.inl ⟨p, n, rfl, (hinv.prod_spec hr).effect⟩)
  | comm ch => exact .inr (.inr ⟨ch, rfl, (commStep_spec hinv.comm h).effect⟩)

end System

/-! ### Exclusive ownership -/

/-- The producer works on entry `i` for call `c`: it is past its claim and has neither
returned nor given up. -/
def WorksOn : ProdPc → Call → Fin NCMP_QUEUE_DEPTH → Prop
  | .encode c i _ _, d, j | .store c i _ _, d, j | .post c i, d, j | .rollback c i _, d, j
  | .waitLoad c i _, d, j | .giveUpSent c i, d, j | .giveUpPosted c i, d, j
  | .giveUpCheck c i, d, j | .readLen c i, d, j | .readRsp c i _ _, d, j
  | .release c i _, d, j => c = d ∧ i = j
  | _, _, _ => False

/-- The producer has observed DONE at entry `i`; its next steps read the response and release
the entry. -/
def SawDone : ProdPc → Fin NCMP_QUEUE_DEPTH → Prop
  | .readLen _ i, j | .readRsp _ i _ _, j | .release _ i _, j => i = j
  | _, _ => False

/-- The two entries agree in the request buffer and in the fields that describe it. -/
def SameRequest (x y : Cell P) : Prop :=
  y.req = x.req ∧ y.ownerSess = x.ownerSess ∧ y.sequenceId = x.sequenceId ∧ y.reqLen = x.reqLen

/-- The ownership discipline of the ring in a state and in the steps that leave it. -/
structure Exclusive [DecidableEq P] [DecidableEq C] (T : Transport σ) (s : Sys σ P C) : Prop where
  /-- At most one call stands between its claim and the release of an entry. -/
  oneHolder : ∀ i, (s.ring i).holders.length ≤ 1
  /-- A producer that works on an entry is that holder. -/
  worker : ∀ p c i, WorksOn (s.prod p) c i → (s.ring i).holders = [⟨p, c, false⟩]
  /-- Only the holder writes a request, and only while the entry is CLAIMED. -/
  requestWrites : ∀ a s', s.step T a = some s' → ∀ i, ¬ SameRequest (s.ring i) (s'.ring i) →
    (s.ring i).state = .claimed ∧ ∃ p n c, a = .prod p n ∧ (s.ring i).holders = [⟨p, c, false⟩]
  /-- The bytes that are about to be sent are the frame that the holder encoded. -/
  sentFrame : ∀ i len got, s.comm = .sending i len got → len ≤ got.length →
    ∃ h, (s.ring i).holders = [h] ∧ ncmpWireEncode h.call.req NCMP_ENTRY_BUF_SIZE = .ok got
  /-- Only the communication thread writes a response, and only while nobody has seen DONE. -/
  responseWrites : ∀ a s', s.step T a = some s' → ∀ i, (s'.ring i).rsp ≠ (s.ring i).rsp →
    (∃ ch, a = .comm ch) ∧ ∀ p, ¬ SawDone (s.prod p) i
  /-- A response is read while the entry is DONE. -/
  responseReads : ∀ p i, SawDone (s.prod p) i → (s.ring i).state = .done

section
variable {p : P} {pc : ProdPc} {i : Fin NCMP_QUEUE_DEPTH} {ring : SlotRing P} {x : Cell P}

/-- A producer holds the entry that it works on. -/
theorem WorksOn.heldBy {c : Call} (h : WorksOn pc c i) (hinv : ProdInv p ring pc) :
    HeldBy (ring i) p c := by
  cases pc with
  | idle | claim _ _ | returned _ _ | rejected _ => exact h.elim
  | _ =>
    obtain ⟨rfl, rfl⟩ := h
    exact hinv.1

/-- An entry that was seen done is done. -/
theorem SawDone.state_eq (h : SawDone pc i) (hinv : ProdInv p ring pc) :
    (ring i).state = .done := by
  cases pc with
  | readLen _ _ =>
    obtain rfl := h
    exact hinv.2
  | readRsp _ _ _ _ | release _ _ _ =>
    obtain rfl := h
    exact hinv.2.1
  | _ => exact h.elim

/-- An entry has at most one holder. -/
theorem WF.length_holders_le (h : WF x) : x.holders.length ≤ 1 := by
  by_cases hfree : x.state = .free
  · simp [h.free hfree]
  · obtain ⟨h, hh, -⟩ := h.held hfree
    simp [hh]

/-- A complete read of the request of an entry in service is the frame of its holder. -/
theorem WF.sent_frame (h : WF x) (hserv : InService x.state) :
    ∃ h, x.holders = [h] ∧
      ncmpWireEncode h.call.req NCMP_ENTRY_BUF_SIZE = .ok (x.req.read 0 x.reqLen.toNat) := by
  obtain ⟨h, hh, -, hready⟩ := h.held (by rcases hserv with h | h <;> simp [h])
  obtain ⟨frame, ⟨hframe, hread⟩, hlen⟩ :=
    (hready (by rcases hserv with h | h <;> simp [h])).frame
  have hbound := length_le_of_ncmpWireEncode hframe
  have hlen' : x.reqLen.toNat = frame.length := by
    rw [hlen]
    refine Nat.mod_eq_of_lt (hbound.trans_lt ?_)
    decide
  exact ⟨h, hh, by rw [hlen', hread, hframe]⟩

/-- A step of a producer changes a request only while it holds the entry and the entry is
CLAIMED, and it never changes a response. -/
theorem ProdEffect.writes {y : Cell P} (h : ProdEffect p pc i x y) :
    (¬ SameRequest x y → x.state = .claimed ∧ ∃ c, HeldBy x p c) ∧ y.rsp = x.rsp := by
  cases h with
  | fill c y hheld hstate _ _ hrsp => exact ⟨fun _ => ⟨hstate, c, hheld⟩, hrsp⟩
  | _ => exact ⟨fun hne => absurd ⟨rfl, rfl, rfl, rfl⟩ hne, rfl⟩

end

/-- A step of the communication thread never changes a request, and it changes a response only
while the entry is SENT or ABANDONED. -/
theorem CommEffect.writes {pc : CommPc} {i : Fin NCMP_QUEUE_DEPTH} {x y : Cell P}
    (h : CommEffect pc i x y) :
    SameRequest x y ∧ (y.rsp ≠ x.rsp → InService x.state) := by
  cases h with
  | deliver b len hstate => exact ⟨⟨rfl, rfl, rfl, rfl⟩, fun _ => hstate⟩
  | _ => exact ⟨⟨rfl, rfl, rfl, rfl⟩, fun hne => absurd rfl hne⟩

/-- A request is its own. -/
theorem SameRequest.refl (x : Cell P) : SameRequest x x :=
  ⟨rfl, rfl, rfl, rfl⟩

/-- In every state that the system reaches, over any transport and with any number of
producers, ownership of the ring entries is exclusive. -/
theorem ring_exclusive [DecidableEq P] [DecidableEq C] {T : Transport σ} {s t : Sys σ P C}
    {as : List (Action T P C)} (hinit : s.Initial) (hrun : exec (Sys.step T) s as = some t) :
    Exclusive T t := by
  have hinv := ownInv_exec hinit hrun
  refine
    { oneHolder := fun i => (hinv.cells i).length_holders_le
      worker := fun p c i h => h.heldBy (hinv.prods p)
      requestWrites := ?_
      sentFrame := ?_
      responseWrites := ?_
      responseReads := fun p i h => h.state_eq (hinv.prods p) }
  · intro a s' hstep i hne
    obtain hring | ⟨p, n, rfl, heff⟩ | ⟨ch, rfl, heff⟩ := hinv.ring_cases hstep
    · rw [hring] at hne
      exact absurd (.refl _) hne
    · obtain ⟨hstate, c, hheld⟩ := (heff i).writes.1 hne
      exact ⟨hstate, p, n, c, rfl, hheld⟩
    · exact absurd (heff i).writes.1 hne
  · intro i len got hpc hlen
    have hcomm := hinv.comm
    rw [hpc] at hcomm
    obtain ⟨hserv, rfl, hle, hgot⟩ := hcomm
    rw [hgot, hle.antisymm hlen]
    exact (hinv.cells i).sent_frame hserv
  · intro a s' hstep i hne
    obtain hring | ⟨p, n, rfl, heff⟩ | ⟨ch, rfl, heff⟩ := hinv.ring_cases hstep
    · rw [hring] at hne
      exact absurd rfl hne
    · exact absurd (heff i).writes.2 hne
    · have hserv := (heff i).writes.2 hne
      refine ⟨⟨ch, rfl⟩, fun p hsaw => ?_⟩
      have hdone := hsaw.state_eq (hinv.prods p)
      simp [InService, hdone] at hserv

/-! ### A run with two processes -/

/-- Actions of two processes that have one client each. -/
abbrev TwoClients := Action token (Fin 2) (Fin 2)

/-- The first process, and its client. -/
def client0 : Fin 2 := ⟨0, Nat.zero_lt_two⟩

/-- The second process, and its client. -/
def client1 : Fin 2 := ⟨1, Nat.one_lt_two⟩

/-- Process `p` starts a command without parameters and posts it in entry `i`, which is the
first FREE one. -/
def submits (p : Fin 2) (i : Nat) : List TwoClients :=
  .start p (.command p (UInt32.ofNat p + 1) none 0 none 0) ::
    List.replicate (i + 8) (.prod p 56)

/-- The communication thread takes entry `i`, which is the first POSTED one, and reads its
request. -/
def takes (i : Nat) : List TwoClients :=
  List.replicate (i + 6) (.comm (.go 56))

/-- A request without parameters, numbered 1. -/
def plainRequest : NcmpMessage :=
  { NcmpMessage.zero with header := ⟨0, 1, 1, 0, 0⟩ }

/-- An answer to it: a frame with the same ids and no parameters. -/
def plainAnswer : List UInt8 :=
  frameOf plainRequest []

/-- A request that is being sent. -/
theorem ring_exclusive_while_sending :
    ∃ t, exec (Sys.step token) Sys.withToken (submits 0 0 ++ takes 0) = some t ∧
      (t.ring 0).state = .sent ∧ Exclusive token t := by
  obtain ⟨t, hrun, hsent⟩ : ∃ t, exec (Sys.step token) Sys.withToken (submits 0 0 ++ takes 0)
      = some t ∧ (t.ring 0).state = .sent := ⟨_, rfl, rfl⟩
  exact ⟨t, hrun, hsent, ring_exclusive (Sys.create_initial _ _ _) hrun⟩

end OpenCryptoki.Proofs.Ncmp
