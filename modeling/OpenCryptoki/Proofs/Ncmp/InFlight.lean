import OpenCryptoki.Proofs.Ncmp.Mock
import OpenCryptoki.Proofs.Ncmp.Ownership

/-!
# `OpenCryptoki.Proofs.Ncmp.InFlight`: the in-flight count of a slot

The communication thread charges the in-flight count before it sends a frame, and it
releases the charge when it has collected a response. So the count is the number of busy
containers of the device, plus one while the thread has a charged frame in hand: a request
that is not yet in a container, or a response that has left one (`CountAt`).

The count is right only because nothing fails. A failed send releases the charge, but it
leaves `stats_total_sent_cmds` one too high, and a failed receive would leave the charge of a
container that is already free. Neither happens with the mock transport on a little-endian host.
The request of a SENT entry is a frame of the encoder (`OwnInv`), the limit of the count is the
number of containers, and the mock answers every such frame (`mockMoverIngest_spec`,
`mockMcuStep_spec`). A big-endian host refuses the frames (`sendsOne_big`).
-/

set_option autoImplicit false

namespace OpenCryptoki.Proofs.Ncmp

open Lib OpenCryptoki.Ncmp

variable {P C : Type}

/-! ### The invariant -/

/-- The in-flight count `cnt` of a thread at the given place, when `busy` containers of the
device are busy. -/
def CountAt (cnt busy : Nat) : CommPc → Prop
  | .dispatch | .drain | .publish _ _ | .takeBack _ => cnt = busy
  | .takeLoad _ | .takeSwap _ | .reserve _ => cnt = busy ∧ cnt < NCMP_DEV_CONTAINER_COUNT
  | .recv => cnt = busy ∧ 0 < cnt
  | .readLen _ | .sending _ _ _ | .matchState _ _ _ | .matchOwner _ _ _ | .matchSequence _ _ _
  | .unmatched | .copy _ _ _ | .setLen _ _ | .release _ _ =>
      cnt = busy + 1 ∧ cnt ≤ NCMP_DEV_CONTAINER_COUNT
  | .sendFailed _ | .requeue _ => False

/-- The frames that are counted as sent and that the transport has not accepted yet. -/
def unsent : CommPc → Nat
  | .readLen _ | .sending _ _ _ => 1
  | _ => 0

structure InFlightInv (s : Sys MockState P C) : Prop where
  limit : s.maxInflight = 4
  dev : DevInv s.transport.dev
  count : CountAt s.stats.inFlightCnt.toNat (busyCount s.transport.dev) s.comm
  total : s.stats.statsTotalSentCmds = UInt64.ofNat (s.transport.accepted + unsent s.comm)
  peak : s.stats.inFlightCnt.toNat ≤ s.stats.statsMaxInFlight.toNat

/-- There are at most as many requests in flight as containers. -/
theorem CountAt.le {cnt : Nat} {dev : MockDevice} {pc : CommPc}
    (h : CountAt cnt (busyCount dev) pc) : cnt ≤ NCMP_DEV_CONTAINER_COUNT := by
  have hbusy := busyCount_le dev
  cases pc <;> simp only [CountAt] at h <;> omega

/-! ### The counters -/

/-- A reservation counts one more. -/
theorem toNat_reserve {st : SlotStats} (h : st.inFlightCnt.toNat < NCMP_DEV_CONTAINER_COUNT) :
    (commReserveInflight st).inFlightCnt.toNat = st.inFlightCnt.toNat + 1 := by
  have hcount : NCMP_DEV_CONTAINER_COUNT = 4 := rfl
  rw [commReserveInflight, UInt32.toNat_add, UInt32.toNat_one, Nat.mod_eq_of_lt (by omega)]

variable {n : Nat} {s s' : Sys MockState P C}

/-- The maximum follows the count. -/
theorem toNat_statsMax_reserve (st : SlotStats) :
    (commReserveInflight st).statsMaxInFlight.toNat
      = max st.statsMaxInFlight.toNat (commReserveInflight st).inFlightCnt.toNat := by
  simp only [commReserveInflight]
  split
  · rename_i hgt
    exact (max_eq_right (le_of_lt (UInt32.lt_iff_toNat_lt.mp hgt))).symm
  · rename_i hle
    exact (max_eq_left (not_lt.mp fun hlt => hle (UInt32.lt_iff_toNat_lt.mpr hlt))).symm

/-! ### One step -/

/-- What a step does to the counters: the invariant holds again, and `stats_max_in_flight`
has followed the count. -/
structure CountSpec (s s' : Sys MockState P C) : Prop where
  inv : InFlightInv s'
  peak : s'.stats.statsMaxInFlight.toNat
    = max s.stats.statsMaxInFlight.toNat s'.stats.inFlightCnt.toNat

/-- The thread moves from `pc` to `pc'`: the count fits, and the frames in hand are the same. -/
def Moves (s : Sys MockState P C) (cnt : Nat) (pc pc' : CommPc) : Prop :=
  CountAt cnt (busyCount s.transport.dev) pc' ∧ unsent pc' = unsent pc

section
variable {pc : CommPc} (hinv : InFlightInv s) (hpc : s.comm = pc)
include hinv hpc

/-- A step that leaves the counters and the device alone. -/
theorem InFlightInv.of_stats_eq (hlimit : s'.maxInflight = s.maxInflight)
    (hstats : s'.stats = s.stats) (htransport : s'.transport = s.transport)
    (hmove : Moves s s.stats.inFlightCnt.toNat pc s'.comm) : CountSpec s s' := by
  refine ⟨⟨hlimit.trans hinv.limit, ?_, ?_, ?_, ?_⟩, ?_⟩
  · rw [htransport]
    exact hinv.dev
  · rw [hstats, htransport]
    exact hmove.1
  · rw [hstats, htransport, hmove.2, ← hpc]
    exact hinv.total
  · rw [hstats]
    exact hinv.peak
  · rw [hstats]
    exact (max_eq_left hinv.peak).symm

/-- A step that releases the charge of the frame in hand. -/
theorem InFlightInv.of_release (hlimit : s'.maxInflight = s.maxInflight)
    (hstats : s'.stats = commReleaseInflight s.stats) (htransport : s'.transport = s.transport)
    (hcnt : s.stats.inFlightCnt.toNat = n + 1) (hmove : Moves s n pc s'.comm) : CountSpec s s' := by
  -- A release does not wrap below zero.
  have hrel : (commReleaseInflight s.stats).inFlightCnt.toNat = n := by
    have hle : (1 : UInt32) ≤ s.stats.inFlightCnt := by
      rw [UInt32.le_iff_toNat_le, hcnt, UInt32.toNat_one]
      omega
    rw [commReleaseInflight, UInt32.toNat_sub_of_le _ _ hle, hcnt, UInt32.toNat_one]
    omega
  have hpeak : n ≤ s.stats.statsMaxInFlight.toNat := le_trans (by omega) hinv.peak
  refine ⟨⟨hlimit.trans hinv.limit, ?_, ?_, ?_, ?_⟩, ?_⟩
  · rw [htransport]
    exact hinv.dev
  · rw [hstats, htransport, hrel]
    exact hmove.1
  · rw [hstats, htransport, hmove.2, ← hpc]
    exact hinv.total
  · rw [hstats, hrel]
    exact hpeak
  · rw [hstats, hrel]
    exact (max_eq_left hpeak).symm

/-- A step that swaps the state of an entry. -/
theorem InFlightInv.of_swap {i : Fin NCMP_QUEUE_DEPTH} {old new : QState} {hs : List (Holder P)}
    {pc' : CommPc} (hmove : Moves s s.stats.inFlightCnt.toNat pc pc') :
    CountSpec s { s.swap i old new hs with comm := pc' } := by
  refine hinv.of_stats_eq hpc ?_ ?_ ?_ hmove
  all_goals
    rw [Sys.swap]
    split <;> rfl

end

/-- A step without input or output keeps the count right. -/
theorem InFlightInv.commGo (hinv : InFlightInv s) (h : commGo n s s.comm = some s') :
    CountSpec s s' := by
  have hcount := hinv.count
  generalize hpc : s.comm = pc at h hcount
  cases pc with
  | dispatch =>
    -- A new request is looked for only below the limit.
    cases h
    refine hinv.of_stats_eq hpc rfl rfl rfl ?_
    split
    · rename_i hlt
      rw [hinv.limit] at hlt
      exact ⟨⟨hcount, UInt32.lt_iff_toNat_lt.mp hlt⟩, rfl⟩
    · exact ⟨hcount, rfl⟩
  | takeLoad i =>
    cases h
    refine hinv.of_stats_eq hpc rfl rfl rfl ?_
    dsimp only
    rw [commTakePosted]
    split
    · split <;> exact ⟨hcount, rfl⟩
    · exact ⟨hcount.1, rfl⟩
  | takeSwap i | publish rx i =>
    cases h
    refine hinv.of_swap hpc ?_
    split <;> exact ⟨hcount, rfl⟩
  | reserve i =>
    -- The only step that counts up: the request has been taken, and a container is free.
    cases h
    obtain ⟨hbusy, hlt⟩ := hcount
    have hreserve := toNat_reserve hlt
    have hmax := toNat_statsMax_reserve s.stats
    refine ⟨⟨hinv.limit, hinv.dev, ⟨by rw [hreserve, hbusy], by rw [hreserve]; exact hlt⟩, ?_, ?_⟩,
      hmax⟩
    · have htotal := hinv.total
      rw [hpc] at htotal
      dsimp only [commReserveInflight]
      rw [htotal, ← UInt64.ofNat_one, ← UInt64.ofNat_add]
      rfl
    · rw [hmax]
      exact le_max_right _ _
  | readLen i | setLen rx i =>
    cases h
    exact hinv.of_stats_eq hpc rfl rfl rfl ⟨hcount, rfl⟩
  | sending i len got =>
    rw [OpenCryptoki.Ncmp.commGo] at h
    split at h
    · cases h
      exact hinv.of_stats_eq hpc rfl rfl rfl ⟨hcount, rfl⟩
    · cases h
  -- The emulated token accepts every frame while a container is free.
  | sendFailed i | requeue i => exact hcount.elim
  | drain =>
    -- A response is waited for only while a request is in flight.
    cases h
    refine hinv.of_stats_eq hpc rfl rfl rfl ?_
    split
    · exact ⟨hcount, rfl⟩
    · rename_i hne
      refine ⟨⟨hcount, Nat.pos_of_ne_zero fun hzero => hne ?_⟩, rfl⟩
      rw [← UInt32.toNat_inj, hzero]
      rfl
  | recv => cases h
  | matchState rx hdr i =>
    cases h
    refine hinv.of_stats_eq hpc rfl rfl rfl ?_
    dsimp only
    rw [commMatchSent]
    repeat' split
    all_goals exact ⟨hcount, rfl⟩
  | matchOwner rx hdr i | matchSequence rx hdr i =>
    cases h
    refine hinv.of_stats_eq hpc rfl rfl rfl ?_
    split <;> exact ⟨hcount, rfl⟩
  | unmatched | release rx i =>
    -- The steps that count down.
    cases h
    exact hinv.of_release hpc rfl rfl rfl hcount.1 ⟨rfl, rfl⟩
  | copy rx i k =>
    rw [OpenCryptoki.Ncmp.commGo] at h
    split at h
    all_goals
      cases h
      exact hinv.of_stats_eq hpc rfl rfl rfl ⟨hcount, rfl⟩
  | takeBack i =>
    cases h
    exact hinv.of_swap hpc ⟨hcount, rfl⟩

/-- A send succeeds: the charge of the frame in hand becomes that of a busy container. -/
theorem InFlightInv.commSend {ch : (mockTransport .little).SendChoice} (hinv : InFlightInv s)
    (hown : OwnInv s) (h : commSend (mockTransport .little) ch s s.comm = some s') :
    CountSpec s s' := by
  have hcount := hinv.count
  have htotal := hinv.total
  generalize hpc : s.comm = pc at h hcount htotal
  cases pc with
  | sending i len got =>
    rw [OpenCryptoki.Ncmp.commSend] at h
    split at h
    · cases h
    · rename_i hlen
      obtain ⟨hcnt, hle⟩ := hcount
      -- What the thread hands to the transport is a frame of the encoder.
      have hisFrame : IsFrame got := by
        have hcomm := hown.comm
        rw [hpc] at hcomm
        obtain ⟨hserv, rfl, hle, hgot⟩ := hcomm
        obtain ⟨h, -, hframe⟩ := (hown.cells i).sent_frame hserv
        rw [hgot, hle.antisymm (not_lt.mp hlen)]
        exact ⟨_, hframe⟩
      obtain ⟨hok, hdev, hbusy⟩ :=
        mockMoverIngest_spec hinv.dev hisFrame (by omega)
      cases h
      refine ⟨⟨hinv.limit, hdev, ?_, ?_, hinv.peak⟩, (max_eq_left hinv.peak).symm⟩
      · simp only [mockTransportSend, hok, if_true, CountAt, hbusy]
        exact hcnt
      · simp only [mockTransportSend, hok, if_true]
        exact htotal
  | _ => cases h

/-- A receive succeeds: the charge of a busy container becomes that of the response in
hand. -/
theorem InFlightInv.commRecv {ch : (mockTransport .little).RecvChoice} (hinv : InFlightInv s)
    (h : commRecv (mockTransport .little) ch s s.comm = some s') :
    CountSpec s s' := by
  have hcount := hinv.count
  have htotal := hinv.total
  generalize hpc : s.comm = pc at h hcount htotal
  cases pc with
  | recv =>
    obtain ⟨hcnt, hpos⟩ := hcount
    obtain ⟨⟨rx, hok, hrx⟩, hdev, hbusy⟩ := mockMcuStep_spec hinv.dev (hcnt ▸ hpos) ch
    have hle := busyCount_le s.transport.dev
    cases h
    have hnext : commReceived (mockTransportRecv s.transport ch).2
        = .matchState rx (frameHeader rx) 0 := by
      simp only [mockTransportRecv, hok, commReceived, hrx.decodeHeader]
    refine ⟨⟨hinv.limit, hdev, ?_, ?_, hinv.peak⟩, (max_eq_left hinv.peak).symm⟩
    · dsimp only
      rw [hnext]
      exact ⟨by rw [hcnt]; exact hbusy.symm, by rw [hcnt]; exact hle⟩
    · dsimp only
      rw [hnext]
      exact htotal
  | _ => cases h

/-! ### Runs of the system -/

/-- The invariant holds at the start. -/
theorem InFlightInv.of_initial (h : s.Initial) (htransport : s.transport = ⟨MockDevice.zero, 0⟩) :
    InFlightInv s where
  limit := h.maxInflight
  dev := by
    rw [htransport]
    exact fun i => .of_empty rfl rfl
  count := by
    rw [h.stats, h.comm, htransport]
    rfl
  total := by
    rw [h.stats, h.comm, htransport]
    rfl
  peak := by rw [h.stats]

/-- Every step keeps the count right. -/
theorem InFlightInv.step [DecidableEq P] [DecidableEq C] {a : Action (mockTransport .little) P C}
    (hinv : InFlightInv s) (hown : OwnInv s) (h : s.step (mockTransport .little) a = some s') :
    CountSpec s s' := by
  cases a with
  | start p r =>
    rw [Sys.step] at h
    split at h
    · cases h
      exact hinv.of_stats_eq rfl rfl rfl rfl ⟨hinv.count, rfl⟩
    · cases h
  | prod p n =>
    obtain ⟨r, -, rfl⟩ := Option.map_eq_some_iff.mp h
    exact hinv.of_stats_eq rfl rfl rfl rfl ⟨hinv.count, rfl⟩
  | comm ch =>
    cases ch with
    | go n => exact hinv.commGo h
    | send ch => exact hinv.commSend hown h
    | recv ch => exact hinv.commRecv h

/-- The accounting of a run from `s` to `t`. The in-flight count is within its limit and
`stats_max_in_flight` is the greatest value that it had. Between the two phases of the
communication thread the count is the number of busy containers, and `stats_total_sent_cmds` is
the number of frames that the transport accepted. -/
structure Accounting [DecidableEq P] [DecidableEq C] {order : ByteOrder} (s : Sys MockState P C)
    (as : List (Action (mockTransport order) P C)) (t : Sys MockState P C) : Prop where
  within : t.stats.inFlightCnt ≤ t.maxInflight
  peak : IsGreatest
    {n | ∃ u ∈ trace (Sys.step (mockTransport order)) s as, u.stats.inFlightCnt.toNat = n}
    t.stats.statsMaxInFlight.toNat
  between : t.comm = .dispatch ∨ t.comm = .drain →
    t.stats.inFlightCnt.toNat = busyCount t.transport.dev ∧
      t.stats.statsTotalSentCmds = UInt64.ofNat t.transport.accepted

/-- On a little-endian host every run of a slot keeps its accounts. -/
theorem accounting_of_little [DecidableEq P] [DecidableEq C] {s t : Sys MockState P C}
    {as : List (Action (mockTransport .little) P C)} (hinit : s.Initial)
    (htransport : s.transport = ⟨MockDevice.zero, 0⟩)
    (h : exec (Sys.step (mockTransport .little)) s as = some t) : Accounting s as t := by
  have hstep (s : Sys MockState P C) (a : Action (mockTransport .little) P C)
      (s' : Sys MockState P C) (hs : OwnInv s ∧ InFlightInv s)
      (h : s.step (mockTransport .little) a = some s') :
      (OwnInv s' ∧ InFlightInv s') ∧ s'.stats.statsMaxInFlight.toNat
        = max s.stats.statsMaxInFlight.toNat s'.stats.inFlightCnt.toNat :=
    ⟨⟨hs.1.step h, (hs.2.step hs.1 h).inv⟩, (hs.2.step hs.1 h).peak⟩
  have hstart : OwnInv s ∧ InFlightInv s := ⟨.of_initial hinit, .of_initial hinit htransport⟩
  have hinv : InFlightInv t :=
    (exec_invariant (fun s a s' hs h => (hstep s a s' hs h).1) hstart h).2
  refine ⟨?_, isGreatest_trace hstep hstart (by rw [hinit.stats]) h, fun hpc => ?_⟩
  · rw [UInt32.le_iff_toNat_le, hinv.limit]
    exact hinv.count.le
  · have hcount := hinv.count
    have htotal := hinv.total
    rcases hpc with hpc | hpc
    all_goals
      rw [hpc] at hcount htotal
      exact ⟨hcount, htotal⟩

/-- A client sends one command, and the thread tries to send it. -/
def sendsOne (order : ByteOrder) : List (Action (mockTransport order) (Fin 1) (Fin 1)) :=
  .start 0 (.command 0 1 none 0 none 0) :: List.replicate 8 (.prod 0 56) ++
    List.replicate 6 (.comm (.go 56)) ++ .comm (.send ()) :: List.replicate 2 (.comm (.go 0))

/-- The mover of a big-endian host refuses the frame, whose prefix is `34 00 00 00`. -/
theorem sendsOne_big : ∃ t, exec (Sys.step (mockTransport .big))
    (Sys.create ⟨MockDevice.zero, 0⟩ 0 1) (sendsOne .big) = some t ∧ t.comm = .drain ∧
      t.stats = ⟨0, 1, 1⟩ ∧ t.transport.accepted = 0 :=
  ⟨_, rfl, rfl, rfl, rfl⟩

/-- A slot with the mock transport keeps its accounts in every run exactly if the host is
little-endian. -/
theorem inFlight_accounting_iff (order : ByteOrder) :
    (∀ (P C : Type) [DecidableEq P] [DecidableEq C] (s t : Sys MockState P C)
        (as : List (Action (mockTransport order) P C)),
      s.Initial → s.transport = ⟨MockDevice.zero, 0⟩ →
        exec (Sys.step (mockTransport order)) s as = some t → Accounting s as t) ↔
      order = .little := by
  constructor
  · intro hall
    cases order with
    | little => rfl
    | big =>
      -- The frame that the mover has refused is counted as sent.
      obtain ⟨t, hrun, hpc, hstats, haccepted⟩ := sendsOne_big
      have htotal := ((hall _ _ _ _ _ (Sys.create_initial _ _ _) rfl hrun).between (.inr hpc)).2
      rw [hstats, haccepted] at htotal
      cases htotal
  · rintro rfl P C _ _ s t as
    exact accounting_of_little

/-- After a refused frame `stats_total_sent_cmds` is 1, and the transport has accepted nothing. -/
theorem refused_frame_counted : ∃ t, exec (Sys.step (mockTransport .big))
    (Sys.create ⟨MockDevice.zero, 0⟩ 0 1) (sendsOne .big) = some t ∧ t.comm = .drain ∧
      t.stats.statsTotalSentCmds = 1 ∧ t.transport.accepted = 0 ∧
        ¬ Accounting (Sys.create ⟨MockDevice.zero, 0⟩ 0 1) (sendsOne .big) t := by
  obtain ⟨t, hrun, hpc, hstats, haccepted⟩ := sendsOne_big
  refine ⟨t, hrun, hpc, by rw [hstats], haccepted, fun haccounts => ?_⟩
  have htotal := (haccounts.between (.inr hpc)).2
  rw [hstats, haccepted] at htotal
  cases htotal

end OpenCryptoki.Proofs.Ncmp
