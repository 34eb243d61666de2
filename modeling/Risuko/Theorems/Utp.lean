import Mathlib.Data.List.ReduceOption
import Mathlib.Data.List.TakeWhile
import Risuko.Lemmas.UtpAcks
import Risuko.Lemmas.UtpInbound
import Risuko.Lemmas.UtpMask
import Risuko.Lemmas.UtpReceive
import Risuko.Lemmas.UtpTimers
import Risuko.Lib.Reach

/-!
# One uTP connection

What holds of a connection in every state it can reach: what it tells its peer, what it holds, what it counts, and what wakes it.
-/

namespace Risuko

/-!
## The counters of a uTP connection are exact

In every state that a connection can reach, by any steps of its owner, its driver and its peer, the three counters that the
windows are computed from are the sums they stand for, and none of them has ever been lowered below zero.
-/

section

variable {F : Type} [F64 F]

/-- The states a connection can reach from a new one by any steps, each with its own reading of the clock. -/
def ConnRun (s : ConnState F) : Prop :=
  Reach (fun s => ∃ remote id kind random now, s = ConnState.new remote id kind random now)
    (fun s s' => ∃ (op : ConnOp) (now : Nat), s' = op.apply s now) s

/-- The counters count after every run. -/
theorem ConnRun.counted {s : ConnState F} (h : ConnRun s) : s.Counted := by
  refine Reach.invariant ?_ ?_ h
  · rintro s ⟨remote, id, kind, random, now, rfl⟩
    exact ConnState.counted_new remote id kind random now
  · rintro s s' hs ⟨op, now, rfl⟩
    exact hs.apply now op

/-- In every reachable state `in_flight` is the payload bytes of the unacked packets not marked for resending, `resend_count`
is the number of those marked, `reorder_bytes` is the buffered bytes, and no subtraction on any of them has underflowed. -/
theorem counters_exact (s : ConnState F) (h : ConnRun s) :
    s.inFlight = ((s.unacked.filter (fun p => !p.needResend)).map (fun p => p.payload.length)).sum ∧
      s.resendCount = s.unacked.countP (fun p => p.needResend) ∧
      s.reorderBytes = (s.reorder.entries.map (fun e => e.2.length)).sum ∧ s.underflow = false := by
  have hc := h.counted
  refine ⟨hc.inFlight, hc.resendCount, ?_, hc.noUnderflow⟩
  exact hc.reorderBytes

/-- The arithmetic of the congestion control without rounding. -/
instance exactF64 : F64 ℚ where
  lt a b := decide (a < b)
  le a b := decide (a ≤ b)
  eq a b := decide (a = b)
  min := min
  max := max
  abs a := |a|
  ceil a := (a.ceil : ℤ)
  ofNat n := n
  toUsize a := a.floor.toNat
  toI64 a := if 0 ≤ a then a.floor else a.ceil
  asSecs n := n / second
  fromSecs a := (a * second).floor.toNat

/-- A packet from the peer of the example. -/
def peerPacket (ty : PacketType) (seq ack : UInt16) : UtpHeader := ⟨ty, 1, 0, 0, 1000000, seq, ack, none⟩

/-- A dial that is answered, two packets sent, one packet received out of order, and a retransmission timeout. -/
def timedOutDial : ConnState ℚ :=
  [(0, ConnOp.startInitiator false 7),
    (1000000, .handlePacket (peerPacket .state 100 7) []),
    (1000000, .transmitProbe [1, 2]),
    (1000000, .transmitProbe [3, 4, 5]),
    (2000000, .handlePacket (peerPacket .data 103 7) [6, 7, 8, 9]),
    (9000000000, .checkTimers)].foldl (fun s e => e.2.apply s e.1) (ConnState.new (.v4 0x7f000001 6881) 2 .initiator 0 0)

/-- After the timeout one packet is to be resent. -/
theorem counters_exact_timed_out :
    ConnRun timedOutDial ∧ timedOutDial.inFlight = 2 ∧ timedOutDial.resendCount = 1 ∧ timedOutDial.reorderBytes = 4 ∧
      (timedOutDial.inFlight = ((timedOutDial.unacked.filter (fun p => !p.needResend)).map (fun p => p.payload.length)).sum ∧
        timedOutDial.resendCount = timedOutDial.unacked.countP (fun p => p.needResend) ∧
        timedOutDial.reorderBytes = (timedOutDial.reorder.entries.map (fun e => e.2.length)).sum ∧
        timedOutDial.underflow = false) := by
  have hrun : ConnRun timedOutDial := Reach.foldl (.init ⟨_, _, _, _, _, rfl⟩) fun _ e _ => ⟨e.2, e.1, rfl⟩
  exact ⟨hrun, by decide +kernel, by decide +kernel, by decide +kernel, counters_exact timedOutDial hrun⟩

end

/-!
## The path MTU search stays in bounds and ends

In every state a connection can reach the bounds of the search are in order, packets fit under the lower bound and a probe in
flight lies strictly above it. Until the search is reopened every resolved probe brings the bounds closer, so that only finitely
many can be resolved.
-/

section

variable {F : Type} [F64 F]

/-- A step of a connection other than a bare call of `transmit_probe`. -/
def DrivenStep (s s' : ConnState F) : Prop := ∃ (op : ConnOp) (now : Nat), op.Driven ∧ s' = op.apply s now

/-- The states a connection can reach by steps of its owner, its driver and its peer. -/
def DrivenRun : ConnState F → Prop :=
  Reach (fun s => ∃ remote id kind random now, s = ConnState.new remote id kind random now) DrivenStep

/-- The search for the packet size is in order after every driven run. -/
theorem DrivenRun.mtuOk {s : ConnState F} (h : DrivenRun s) : s.MtuOk := by
  refine Reach.invariant ?_ ?_ h
  · rintro s ⟨remote, id, kind, random, now, rfl⟩
    exact ConnState.mtuOk_new remote id kind random now
  · rintro s s' hs ⟨op, now, hop, rfl⟩
    exact (ConnState.searches_apply s now hop).ok hs

/-- Between two states of a run the search goes on as it should. -/
theorem DrivenRun.searches {s s' : ConnState F} (h : Reach (· = s) DrivenStep s') : ConnState.Searches s s' := by
  induction h with
  | init hi =>
    subst hi
    exact ConnState.Searches.refl _
  | step _ hst ih =>
    obtain ⟨op, now, hop, rfl⟩ := hst
    exact ih.trans (ConnState.searches_apply _ now hop)

/-- In every reachable state the bounds of the MTU search are in order and inside those of the address family, the packet size
is the lower bound less the overhead, a probe in flight is above the lower bound and not above the upper one; and on every way
onwards that does not reopen the search, the bounds have come closer by at least one for each probe resolved. -/
theorem mtu_search_bounds (s : ConnState F) (h : DrivenRun s) :
    s.remote.minDatagram ≤ s.mtuFloor ∧ s.mtuFloor ≤ s.mtuCeiling ∧ s.mtuCeiling ≤ s.remote.maxDatagram ∧
      utpOverhead ≤ s.mtuFloor ∧ s.packetSize = s.mtuFloor - utpOverhead ∧
      (∀ seq size, s.mtuProbe = some (seq, size) → s.mtuFloor < size ∧ size ≤ s.mtuCeiling) ∧
      ∀ s', Reach (· = s) DrivenStep s' → s'.searchesReopened = s.searchesReopened →
        s'.probesResolved + (s'.mtuCeiling - s'.mtuFloor) ≤ s.probesResolved + (s.mtuCeiling - s.mtuFloor) := by
  have hok := h.mtuOk
  have hover : utpOverhead ≤ s.remote.minDatagram := le_trans (by decide) (ConnState.datagram_bounds s.remote).1
  refine ⟨hok.floor, hok.order, hok.ceiling, hover.trans hok.floor, hok.packetSize, hok.probe, fun s' hs' he => ?_⟩
  exact (DrivenRun.searches hs').narrows hok he

/-- A dial over which a probe is sent and acked. -/
def probedDial : ConnState ℚ :=
  [(0, ConnOp.startInitiator true 7),
    (1000000, .handlePacket (peerPacket .state 100 7) []),
    (1000000, .pollWrite (List.replicate 6000 0)),
    (1000000, .fillSendWindow),
    (2000000, .handlePacket (peerPacket .state 100 10) []),
    (2000000, .fillSendWindow),
    (3000000, .handlePacket (peerPacket .state 100 11) [])].foldl (fun s e => e.2.apply s e.1)
      (ConnState.new (.v4 0x7f000001 6881) 2 .initiator 0 0)

theorem probedDial_run : DrivenRun probedDial := by
  refine Reach.foldl (.init ⟨_, _, _, _, _, rfl⟩) fun _ e he => ⟨e.2, e.1, ?_, rfl⟩
  simp only [List.mem_cons, List.not_mem_nil, or_false] at he
  rcases he with rfl | rfl | rfl | rfl | rfl | rfl | rfl <;> trivial

/-- The dial once its SYN is acked, and once the packets before the probe are. -/
def probing : ConnState ℚ :=
  (ConnOp.handlePacket (peerPacket .state 100 7) []).apply
    ((ConnOp.startInitiator true 7).apply (ConnState.new (.v4 0x7f000001 6881) 2 .initiator 0 0) 0) 1000000

def grown : ConnState ℚ := (ConnOp.handlePacket (peerPacket .state 100 10) []).apply (probing.filled 6000 1000000) 2000000

theorem probedDial_eq :
    probedDial = (ConnOp.handlePacket (peerPacket .state 100 11) []).apply (grown.filled 2400 2000000) 3000000 := by
  have h₁ : probing.Ready 0 1000000 := by decide +kernel
  have h₂ : grown.Ready 2400 2000000 := by decide +kernel
  have hsteps : probedDial = ConnState.afterOps (ConnState.new (.v4 0x7f000001 6881) 2 .initiator 0 0) _ := rfl
  rw [hsteps, ConnState.afterOps_cons, ConnState.afterOps_cons, ← probing,
    ConnState.afterOps_write_fill h₁ (k := 6000) (by decide) (by decide), ConnState.afterOps_cons, ← grown, ConnState.afterOps_fill h₂,
    ConnState.afterOps_cons, ConnState.afterOps_nil]

/-- One probe was answered, and the floor is up. -/
theorem mtu_search_bounds_probed :
    DrivenRun probedDial ∧ probedDial.probesResolved = 1 ∧ probedDial.mtuFloor = 1363 ∧
      probedDial.mtuFloor ≤ probedDial.mtuCeiling ∧ probedDial.mtuCeiling ≤ probedDial.remote.maxDatagram ∧
      probedDial.packetSize = probedDial.mtuFloor - utpOverhead := by
  obtain ⟨_, horder, hceil, _, hsize, _⟩ := mtu_search_bounds probedDial probedDial_run
  have hprobed : probedDial.probesResolved = 1 ∧ probedDial.mtuFloor = 1363 := by
    rw [probedDial_eq]
    decide +kernel
  exact ⟨probedDial_run, hprobed.1, hprobed.2, horder, hceil, hsize⟩

end

/-!
## A uTP sender always has a timer set

After every round of its driver a connection that is not closed and has something unacked or unsent has a deadline to wake it:
the retransmission timer while anything is unacked, else the zero-window probe or the pacing.
-/

section

variable {F : Type} [F64 F]

/-- The state of a connection whose driver has just sent the SYN or the answer to it. -/
inductive Started : ConnState F → Prop
  | initiator (remote : SocketAddr) (id random : UInt16) (pmtud : Bool) (isn : UInt16) (now now' : Nat) :
    Started ((ConnState.new remote id .initiator random now).startInitiator pmtud isn now')
  | responder (remote : SocketAddr) (id random : UInt16) (syn : UtpHeader) (pmtud : Bool) (now now' now'' : Nat) :
    Started (((ConnState.new remote id .responder random now).seedResponder syn now').startResponder pmtud now'')

/-- The states a connection can reach once its driver runs. -/
def StartedRun : ConnState F → Prop := Reach Started DrivenStep

/-- What wakes the driver: a packet, a timer or its owner. -/
inductive DriverEvent
  | packet (h : UtpHeader) (payload : List UInt8)
  | timers
  | nudge

def DriverEvent.op : DriverEvent → ConnOp
  | packet h payload => .handlePacket h payload
  | timers => .checkTimers
  | nudge => .nudge

/-- A round of the driver, each of its calls with its own reading of the clock. -/
def driverRound (s : ConnState F) (e : DriverEvent) (t₀ t₁ t₂ t₃ : Nat) : ConnState F :=
  (((e.op.apply s t₀).fillSendWindow t₁).maybeSendFin t₂).fillSendWindow t₃

/-- Rounds of the driver are driven. -/
theorem StartedRun.driven {s : ConnState F} (h : StartedRun s) : DrivenRun s := by
  induction h with
  | init hi =>
    cases hi with
    | initiator remote id random pmtud isn now now' =>
      exact .step (.init ⟨remote, id, .initiator, random, now, rfl⟩) ⟨.startInitiator pmtud isn, now', trivial, rfl⟩
    | responder remote id random syn pmtud now now' now'' =>
      refine .step (.step (.init ⟨remote, id, .responder, random, now, rfl⟩) ⟨.seedResponder syn, now', trivial, rfl⟩) ?_
      exact ⟨.startResponder pmtud, now'', trivial, rfl⟩
  | step _ hst ih => exact .step ih hst

/-- The counters count in driven runs too. -/
theorem DrivenRun.counted {s : ConnState F} (h : DrivenRun s) : s.Counted := by
  refine ConnRun.counted ?_
  induction h with
  | init hi => exact .init hi
  | step _ hst ih =>
    obtain ⟨op, now, _, rfl⟩ := hst
    exact .step ih ⟨op, now, rfl⟩

/-- A started connection is live after every round. -/
theorem StartedRun.live {s : ConnState F} (h : StartedRun s) : s.Live := by
  refine Reach.invariant ?_ ?_ h
  · intro s hs
    cases hs with
    | initiator remote id random pmtud isn now now' =>
      refine ⟨fun _ => rfl, fun _ he => ?_, fun he => (by cases he)⟩
      cases he
    | responder remote id random syn pmtud now now' now'' =>
      exact ⟨fun hne => absurd rfl hne, fun he => (by cases he), fun _ => rfl⟩
  · rintro s s' hs ⟨op, now, hop, rfl⟩
    exact hs.apply now hop

theorem DriverEvent.driven_op (e : DriverEvent) : e.op.Driven := by
  cases e with
  | packet h payload => trivial
  | timers => trivial
  | nudge => trivial

/-- Within a round, too, the state before the window is filled is one of a started run. -/
theorem StartedRun.before_fill {s : ConnState F} (h : StartedRun s) (e : DriverEvent) (t₀ t₁ t₂ : Nat) :
    StartedRun (((e.op.apply s t₀).fillSendWindow t₁).maybeSendFin t₂) :=
  .step (.step (.step h ⟨e.op, t₀, e.driven_op, rfl⟩) ⟨.fillSendWindow, t₁, trivial, rfl⟩) ⟨.maybeSendFin, t₂, trivial, rfl⟩

/-- One deadline that is set gives an earliest one. -/
theorem earliest_isSome {deadlines : List (Option Nat)} {d : Option Nat} (hmem : d ∈ deadlines) (hd : d.isSome = true) :
    (ConnState.earliest deadlines).isSome = true := by
  obtain ⟨at_, rfl⟩ := Option.isSome_iff_exists.mp hd
  unfold ConnState.earliest
  rw [List.isSome_min?_iff]
  intro hnil
  have : at_ ∈ deadlines.reduceOption := List.reduceOption_mem_iff.mpr hmem
  rw [hnil] at this
  cases this

/-- After every round of the driver of an open connection: the retransmission timer is set while anything is unacked; bytes to
send with nothing unacked wait for the zero-window probe or the pacing, or can be sent; and with anything unacked or unsent there
is a next deadline. -/
theorem sender_wakes (s : ConnState F) (h : StartedRun s) (e : DriverEvent) (t₀ t₁ t₂ t₃ : Nat)
    (hopen : (driverRound s e t₀ t₁ t₂ t₃).state ≠ .closed) :
    ((driverRound s e t₀ t₁ t₂ t₃).unacked ≠ [] → (driverRound s e t₀ t₁ t₂ t₃).rtoBase.isSome = true) ∧
      ((driverRound s e t₀ t₁ t₂ t₃).sendBuf ≠ [] → (driverRound s e t₀ t₁ t₂ t₃).unacked = [] →
        (driverRound s e t₀ t₁ t₂ t₃).probeAt.isSome = true ∨ (driverRound s e t₀ t₁ t₂ t₃).paceAt.isSome = true ∨
          (driverRound s e t₀ t₁ t₂ t₃).maySend
            (min (driverRound s e t₀ t₁ t₂ t₃).sendBuf.length (driverRound s e t₀ t₁ t₂ t₃).packetSize) = true) ∧
      ((driverRound s e t₀ t₁ t₂ t₃).unacked ≠ [] ∨ (driverRound s e t₀ t₁ t₂ t₃).sendBuf ≠ [] →
        (driverRound s e t₀ t₁ t₂ t₃).nextDeadline.isSome = true) := by
  have hbefore := h.before_fill e t₀ t₁ t₂
  have hlive := (hbefore.live).fillSendWindow t₃
  have hwaits := ConnState.fillSendWindow_waits hbefore.driven.counted hbefore.live t₃ hopen
  change (driverRound s e t₀ t₁ t₂ t₃).Live at hlive
  change (driverRound s e t₀ t₁ t₂ t₃).sendBuf ≠ [] → (driverRound s e t₀ t₁ t₂ t₃).unacked = [] →
    (driverRound s e t₀ t₁ t₂ t₃).state = .connected ∧ ((driverRound s e t₀ t₁ t₂ t₃).probeAt.isSome = true ∨
      (driverRound s e t₀ t₁ t₂ t₃).paceAt.isSome = true) at hwaits
  generalize driverRound s e t₀ t₁ t₂ t₃ = r at hopen hlive hwaits ⊢
  refine ⟨hlive.armed, fun hbuf hun => ?_, fun hdata => ?_⟩
  · rcases (hwaits hbuf hun).2 with hp | hp
    · exact .inl hp
    · exact .inr (.inl hp)
  by_cases hun : r.unacked = []
  · have hbuf : r.sendBuf ≠ [] := by
      rcases hdata with hu | hb
      · exact absurd hun hu
      · exact hb
    obtain ⟨hconn, hp | hp⟩ := hwaits hbuf hun
    · exact earliest_isSome (d := r.probeAt) (by simp) hp
    · refine earliest_isSome (d := if r.state = .connected ∨ r.state = .finSent then r.paceAt else none) (by simp) ?_
      rw [if_pos (.inl hconn)]
      exact hp
  · refine earliest_isSome (d := if r.unacked.isEmpty then none else r.rtoBase.map (fun base => base + r.rto)) (by simp) ?_
    rw [if_neg (by simpa using hun), Option.isSome_map]
    exact hlive.armed hun

/-- An ack of the peer of the example, with its window. -/
def peerAck (ack : UInt16) (wnd : UInt32) : UtpHeader := ⟨.state, 1, 0, 0, wnd, 100, ack, none⟩

/-- A dial whose window has grown until its bursts are paced: it waits with bytes to send. -/
def pacedDial : ConnState ℚ :=
  [(50000000, ConnOp.handlePacket (peerAck 7 1000000) []),
    (50000000, .pollWrite (List.replicate 4800 0)),
    (50000000, .fillSendWindow),
    (100000000, .handlePacket (peerAck 10 1000000) []),
    (100000000, .pollWrite (List.replicate 7200 0)),
    (100000000, .fillSendWindow),
    (150000000, .handlePacket (peerAck 16 1000000) []),
    (150000000, .pollWrite (List.replicate 14400 0)),
    (150000000, .fillSendWindow),
    (200000000, .handlePacket (peerAck 28 1000000) []),
    (200000000, .pollWrite (List.replicate 20400 0)),
    (200000000, .fillSendWindow)].foldl (fun s e => e.2.apply s e.1)
      ((ConnState.new (.v4 0x7f000001 6881) 2 .initiator 0 0).startInitiator false 7 0)

theorem pacedDial_run : StartedRun pacedDial := by
  refine Reach.foldl (.init (.initiator _ _ _ _ _ _ _)) fun _ e he => ⟨e.2, e.1, ?_, rfl⟩
  simp only [List.mem_cons, List.not_mem_nil, or_false] at he
  rcases he with rfl | rfl | rfl | rfl | rfl | rfl | rfl | rfl | rfl | rfl | rfl | rfl <;> trivial

/-- The round in which a paced sender gets all its packets acked by a peer that closes its window. -/
def pacedRound : ConnState ℚ :=
  driverRound pacedDial (.packet (peerAck 44 0) []) 200000001 200000001 200000001 200000001

/-- The dial each time its packets are acked, with the fills computed from the number of bytes. -/
def answered : ConnState ℚ :=
  (ConnOp.handlePacket (peerAck 7 1000000) []).apply
    ((ConnState.new (.v4 0x7f000001 6881) 2 .initiator 0 0).startInitiator false 7 0) 50000000

def grownOnce : ConnState ℚ := (ConnOp.handlePacket (peerAck 10 1000000) []).apply (answered.filled 4800 50000000) 100000000

def grownTwice : ConnState ℚ := (ConnOp.handlePacket (peerAck 16 1000000) []).apply (grownOnce.filled 8400 100000000) 150000000

def grownThrice : ConnState ℚ := (ConnOp.handlePacket (peerAck 28 1000000) []).apply (grownTwice.filled 15600 150000000) 200000000

theorem pacedDial_eq : pacedDial = grownThrice.filled 21600 200000000 := by
  have h₁ : answered.Ready 0 50000000 := by decide +kernel
  have h₂ : grownOnce.Ready 1200 100000000 := by decide +kernel
  have h₃ : grownTwice.Ready 1200 150000000 := by decide +kernel
  have h₄ : grownThrice.Ready 1200 200000000 := by decide +kernel
  have hsteps : pacedDial = ConnState.afterOps ((ConnState.new (.v4 0x7f000001 6881) 2 .initiator 0 0).startInitiator false 7 0) _ := rfl
  rw [hsteps, ConnState.afterOps_cons, ← answered, ConnState.afterOps_write_fill h₁ (k := 4800) (by decide) (by decide),
    ConnState.afterOps_cons, ← grownOnce, ConnState.afterOps_write_fill h₂ (k := 7200) (by decide) (by decide),
    ConnState.afterOps_cons, ← grownTwice, ConnState.afterOps_write_fill h₃ (k := 14400) (by decide) (by decide),
    ConnState.afterOps_cons, ← grownThrice, ConnState.afterOps_write_fill h₄ (k := 20400) (by decide) (by decide), ConnState.afterOps_nil]

/-- The window is open but the pace holds the packet back, and no probe is set. -/
theorem pacedRound_waits :
    pacedRound.state ≠ .closed ∧ pacedRound.unacked.isEmpty = true ∧ pacedRound.sendBuf.isEmpty = false ∧
      pacedRound.probeAt.isSome = false ∧
      pacedRound.maySend (min pacedRound.sendBuf.length pacedRound.packetSize) = false := by
  unfold pacedRound
  rw [pacedDial_eq]
  decide +kernel

/-- There still is a deadline. -/
theorem sender_wakes_paced :
    StartedRun pacedDial ∧ pacedRound.unacked = [] ∧ pacedRound.sendBuf ≠ [] ∧ pacedRound.nextDeadline.isSome = true := by
  obtain ⟨hopen, hun, hbuf, _, _⟩ := pacedRound_waits
  have hbuf' : pacedRound.sendBuf ≠ [] := by simpa using hbuf
  have hwakes := sender_wakes pacedDial pacedDial_run (.packet (peerAck 44 0) []) 200000001 200000001 200000001 200000001 hopen
  exact ⟨pacedDial_run, List.isEmpty_iff.mp hun, hbuf', hwakes.2.2 (.inr hbuf')⟩

/-- With all packets acked and the window of the peer closed, a paced sender has neither a zero-window probe nor a packet that
may be sent: it is the pacing that wakes it. -/
theorem paced_sender_without_probe :
    ¬ ∀ (s : ConnState ℚ), StartedRun s → ∀ (e : DriverEvent) (t₀ t₁ t₂ t₃ : Nat),
      (driverRound s e t₀ t₁ t₂ t₃).state ≠ .closed → (driverRound s e t₀ t₁ t₂ t₃).sendBuf ≠ [] →
        (driverRound s e t₀ t₁ t₂ t₃).unacked = [] → (driverRound s e t₀ t₁ t₂ t₃).probeAt.isSome = true ∨
          (driverRound s e t₀ t₁ t₂ t₃).maySend
            (min (driverRound s e t₀ t₁ t₂ t₃).sendBuf.length (driverRound s e t₀ t₁ t₂ t₃).packetSize) = true := by
  intro hall
  obtain ⟨hopen, hun, hbuf, hprobe, hmay⟩ := pacedRound_waits
  have hbuf' : pacedRound.sendBuf ≠ [] := by simpa using hbuf
  rcases hall pacedDial pacedDial_run (.packet (peerAck 44 0) []) 200000001 200000001 200000001 200000001 hopen hbuf'
    (List.isEmpty_iff.mp hun) with hp | hm
  · exact Bool.false_ne_true (hprobe.symm.trans hp)
  · exact Bool.false_ne_true (hmay.symm.trans hm)

end

/-!
## What a peer can make a uTP connection hold

However a peer chooses its packets, and whenever the owner reads, a connection holds less than its buffer and one payload, and
buffers no more packets out of order than its limit.
-/

section

variable {F : Type} [F64 F]

/-- A packet of the peer with a payload of at most `M` bytes, a read, or the hand-off to `accept`. -/
inductive ReceiveStep (M : Nat) (s : ConnState F) : ConnState F → Prop
  | packet (h : UtpHeader) (payload : List UInt8) (now : Nat) (hM : payload.length ≤ M) : ReceiveStep M s (s.handlePacket h payload now)
  | read (n : Nat) : ReceiveStep M s (s.pollRead n).1
  | handOff (waiting : Bool) (now : Nat) : ReceiveStep M s (s.handOff waiting now).1

/-- The states that packets of a peer lead to, with reads in between. -/
def ReceiveRun (M : Nat) : ConnState F → Prop := Reach Started (ReceiveStep M)

/-- A new connection has received nothing. -/
theorem bounded_new (M : Nat) (remote : SocketAddr) (id : UInt16) (kind : RoleKind) (random : UInt16) (now : Nat) :
    (ConnState.new (F := F) remote id kind random now).Bounded M where
  counted := ConnState.counted_new remote id kind random now
  noProbe := rfl
  packetSize := by
    show 0 < remote.initialDatagram - utpOverhead ∧ remote.initialDatagram - utpOverhead ≤ maxDatagramV4
    unfold SocketAddr.initialDatagram
    split
    · decide
    · decide
  held := by
    show 0 + 0 < recvBufMax + M
    unfold recvBufMax
    omega
  size := Nat.zero_le _

/-- A connection at its start has received nothing. -/
theorem Started.bounded {s : ConnState F} (h : Started s) (M : Nat) : s.Bounded M := by
  cases h with
  | initiator remote id random pmtud isn now now' =>
    have hnew := bounded_new (F := F) M remote id .initiator random now
    exact hnew.of_inbox (hnew.counted.apply now' (.startInitiator pmtud isn)) rfl
  | responder remote id random syn pmtud now now' now'' =>
    have hnew := bounded_new (F := F) M remote id .responder random now
    have hseeded := hnew.counted.apply now' (.seedResponder syn)
    refine ⟨hseeded.apply now'' (.startResponder pmtud), rfl, hnew.packetSize, hnew.held, ?_⟩
    exact Nat.zero_le _

/-- Every run keeps what is received and not read within the bound. -/
theorem ReceiveRun.bounded {M : Nat} {s : ConnState F} (h : ReceiveRun M s) : s.Bounded M := by
  refine Reach.invariant (fun s hs => hs.bounded M) (fun s s' hs hstep => ?_) h
  cases hstep with
  | packet hd payload now hM => exact hs.handlePacket hd hM now
  | read n => exact hs.pollRead n
  | handOff waiting now => exact hs.handOff waiting now

/-- In every state that packets with payloads of at most `M` bytes lead to, whatever their headers and however they are
interleaved with reads, the bytes ready and buffered are less than the buffer and `M`, and no more packets are buffered than the
limit of the state. -/
theorem receive_bounded (M : Nat) (s : ConnState F) (h : ReceiveRun M s) :
    s.recvReady.length + s.reorderBytes < recvBufMax + M ∧ s.reorder.size ≤ s.reorderLimit :=
  ⟨h.bounded.held, h.bounded.size⟩

/-- An accepted connection that gets its second and its first packet, and is read from in between. -/
def acceptedPair : ConnState ℚ :=
  (((((((ConnState.new (.v4 0x7f000001 6881) 2 .responder 5 0).seedResponder (peerPacket .syn 100 0) 0).startResponder false 0).handlePacket
    (peerPacket .data 102 4) [7, 8, 9] 1).pollRead 2).1).handlePacket (peerPacket .data 101 4) [5, 6] 2)

/-- Two packets in the wrong order are ready once both are there. -/
theorem receive_bounded_accepted_pair :
    acceptedPair.recvReady = [5, 6, 7, 8, 9] ∧
      acceptedPair.recvReady.length + acceptedPair.reorderBytes < recvBufMax + 3 ∧
      acceptedPair.reorder.size ≤ acceptedPair.reorderLimit :=
  ⟨by decide +kernel, receive_bounded 3 acceptedPair
    (.step (.step (.step (.init (.responder ..)) (.packet (peerPacket .data 102 4) [7, 8, 9] 1 (by decide))) (.read 2))
      (.packet (peerPacket .data 101 4) [5, 6] 2 (by decide)))⟩

end

/-!
## What the reader gets

The packets of one peer arrive lost, repeated and out of order, between them anything else that the driver and the owner of the stream
do. What the reader has been given and what is ready for it are the payloads of the packets up to the acked one, each once and in
order.
-/

section

variable {F : Type} [F64 F]

/-- A connection, the bytes that its reader has been given, and how many packets of the peer it has taken. -/
structure Reading (F : Type) where
  conn : ConnState F
  out : List UInt8
  taken : Nat

namespace Reading

/-- The connection after a step that hands over `bytes`: its acked number has moved on by the packets taken. -/
def after (d : Reading F) (s : ConnState F) (bytes : List UInt8) : Reading F :=
  ⟨s, d.out ++ bytes, d.taken + (s.ackNr - d.conn.ackNr).toNat⟩

/-- A connection that is no longer dialling and has received nothing. -/
def Starts (I : Incoming) (d : Reading F) : Prop :=
  d.conn.received = (I.base, [], .empty, none, false) ∧ d.conn.state ≠ .synSent ∧ d.out = [] ∧ d.taken = 0

/-- Packets come unless their sender has sent more than half of the numbers since, and reads, flushes and the other steps of the driver and
the owner at any time; but the owner does not drop the stream. -/
inductive Step (I : Incoming) (d : Reading F) : Reading F → Prop
  | packet (h : UtpHeader) (payload : List UInt8) (now : Nat) (harrives : I.Arrives h payload d.taken) :
    Step I d (d.after (d.conn.handlePacket h payload now) [])
  | read (n : Nat) : Step I d (d.after (d.conn.pollRead n).1 (ConnState.bytesRead (d.conn.pollRead n).2))
  | drive (op : ConnOp) (now : Nat) (hop : op.Driving) : Step I d (d.after (op.apply d.conn now) [])

omit [F64 F] in
/-- Bytes that were read go on with what was read before. -/
theorem caughtUp_after {I : Incoming} {d : Reading F} {s : ConnState F} {bytes : List UInt8} (h : d.conn.CaughtUp I d.out d.taken)
    (hs : s.Advanced I (d.out ++ bytes) d.taken) : (d.after s bytes).conn.CaughtUp I (d.after s bytes).out (d.after s bytes).taken := by
  obtain ⟨k, hk, hfar, hs⟩ := hs
  have hsub := I.toNat_number_sub k d.taken
  rw [← hs.1.ackNr, ← h.1.ackNr] at hsub
  have htaken : d.taken + (s.ackNr - d.conn.ackNr).toNat = k := by
    unfold maxReorderDistance at hfar
    omega
  unfold after
  rwa [htaken]

/-- In every run what was read and what is ready is the stream up to the acknowledged packet. -/
theorem caughtUp {I : Incoming} {d : Reading F} (h : Reach (Starts I) (Step I) d) : d.conn.CaughtUp I d.out d.taken := by
  induction h with
  | init hd =>
    obtain ⟨hdata, hstate, hout, htaken⟩ := hd
    simp only [ConnState.received, Prod.mk.injEq] at hdata
    obtain ⟨hack, hready, hreorder, hfin, hreader⟩ := hdata
    rw [hout, htaken]
    refine ⟨⟨hstate, hreader, ?_, by rw [hready]; rfl, by rw [hreorder]; rintro _ _ ⟨⟩, by rw [hfin]; rintro _ ⟨⟩, fun _ _ => Nat.zero_le _⟩,
      by rw [hreorder]; rfl⟩
    rw [hack]
    simp [Incoming.number]
  | @step d d' _ hstep hd =>
    have hout : d.out = d.out ++ [] := (List.append_nil d.out).symm
    cases hstep with
    | packet hd' payload now harrives => exact caughtUp_after hd (hout ▸ hd.handlePacket payload now harrives)
    | read n => exact caughtUp_after hd (hd.pollRead n).advanced
    | drive op now hop => exact caughtUp_after hd (hout ▸ (hd.quiet (hop.quiet d.conn now)).advanced)

/-- In every state reached, the bytes handed over and those ready are the stream of the peer up to the last packet taken, the acked number
is that of this packet, and what is buffered are packets of the stream behind the next one. -/
theorem reads_the_stream (I : Incoming) (d : Reading F) (h : Reach (Starts I) (Step I) d) :
    d.conn.ackNr = I.number d.taken ∧ d.out ++ d.conn.recvReady = I.stream d.taken ∧
      ∀ n buf, d.conn.reorder.get? n = some buf →
        ∃ i, d.taken + 2 ≤ i ∧ i ≤ d.taken + maxReorderDistance ∧ n = I.number i ∧ buf = I.data i := by
  obtain ⟨hdelivers, hnext⟩ := caughtUp h
  refine ⟨hdelivers.ackNr, hdelivers.ready, fun n buf hbuf => ?_⟩
  obtain ⟨i, hk, hi, hn, hdata, -⟩ := hdelivers.early n buf hbuf
  have hne : i ≠ d.taken + 1 := by
    rintro rfl
    rw [hn, hnext] at hbuf
    cases hbuf
  exact ⟨i, by omega, hi, hn, hdata⟩

/-- Two packets and the FIN of a peer whose SYN had the number 100. -/
def pairThenFin : Incoming := ⟨100, fun i => if i = 1 then [5, 6] else [7, 8, 9], some 3⟩

/-- The second packet, the first, a read of two bytes and the FIN, with a turn of the driver in between. -/
def pairRead : Reading ℚ :=
  let accepted := ((ConnState.new (.v4 0x7f000001 6881) 2 .responder 5 0).seedResponder (peerPacket .syn 100 0) 0).startResponder false 0
  let second : Reading ℚ := (⟨accepted, [], 0⟩ : Reading ℚ).after (accepted.handlePacket (peerPacket .data 102 4) [7, 8, 9] 1) []
  let driven := second.after (ConnOp.apply second.conn 2 (.driveTail true)) []
  let first := driven.after (driven.conn.handlePacket (peerPacket .data 101 4) [5, 6] 3) []
  let read := first.after (first.conn.pollRead 2).1 (ConnState.bytesRead (first.conn.pollRead 2).2)
  read.after (read.conn.handlePacket (peerPacket .fin 103 4) [] 4) []

/-- Two packets in the wrong order, and a read of two bytes. -/
theorem reads_the_stream_pair :
    pairRead.out = [5, 6] ∧ pairRead.conn.recvReady = [7, 8, 9] ∧ pairRead.taken = 3 ∧
      pairRead.conn.ackNr = pairThenFin.number pairRead.taken ∧
      pairRead.out ++ pairRead.conn.recvReady = pairThenFin.stream pairRead.taken ∧
      ∀ n buf, pairRead.conn.reorder.get? n = some buf → ∃ i, pairRead.taken + 2 ≤ i ∧
        i ≤ pairRead.taken + maxReorderDistance ∧ n = pairThenFin.number i ∧ buf = pairThenFin.data i :=
  ⟨by decide +kernel, by decide +kernel, by decide +kernel, reads_the_stream pairThenFin pairRead
    (.step (.step (.step (.step (.step (.init ⟨rfl, by decide, rfl, rfl⟩)
      (.packet _ _ 1 (.inr ⟨2, ⟨rfl, by decide, by decide, by decide⟩, by decide, by decide⟩))) (.drive (.driveTail true) 2 trivial))
      (.packet _ _ 3 (.inr ⟨1, ⟨rfl, by decide, by decide, by decide⟩, by decide +kernel, by decide +kernel⟩))) (.read 2))
      (.packet _ _ 4 (.inr ⟨3, ⟨rfl, by decide, by decide, by decide⟩, by decide +kernel, by decide +kernel⟩)))⟩

end Reading

end

/-!
## Selective acks reach the peer

What a connection says it has buffered is what the peer reads: the mask built from the buffer, sent in a packet and decoded, names
exactly the buffered numbers as far as it reaches. A header comes back from its encoding if and only if its selective ack is missing
or has a length that a record can hold.
-/

namespace ConnState

variable {F : Type}

/-- The bit of a number in a mask that starts two past the acked number. -/
theorem sackBitOf_lt_iff {ack seq : UInt16} {bits : Nat} (hbits : bits + 1 < 2 ^ 16) :
    sackBitOf (ack + 2) seq < bits ↔ 2 ≤ (seq - ack).toNat ∧ (seq - ack).toNat ≤ bits + 1 := by
  have hs := seq.toNat_lt
  have ha := ack.toNat_lt
  have htwo : (2 : UInt16).toNat = 2 := rfl
  unfold sackBitOf
  simp only [UInt16.toNat_sub, UInt16.toNat_add, htwo]
  omega

/-- Two numbers of the same bit are the same. -/
theorem sackBitOf_inj {base a b : UInt16} (h : sackBitOf base a = sackBitOf base b) : a = b := by
  have hsub : a - base = b - base := UInt16.toNat_inj.mp h
  have := congrArg (fun x => x + base) hsub
  simpa using this

theorem length_maskOf (s : ConnState F) : (s.buildSelectiveAck.getD []).length ≤ maxSackBytes := by
  cases hmask : s.buildSelectiveAck with
  | none => exact Nat.zero_le _
  | some mask => exact (length_buildSelectiveAck hmask).2.2

/-- The mask of a state names the buffered numbers that it reaches. -/
theorem sackNames_header (s : ConnState F) (ty : PacketType) (id seq : UInt16) (now : Nat) (n : UInt16) :
    sackNames (s.header ty id seq now) n = true ↔
      n ∈ s.reorder.keys ∧ 2 ≤ (n - s.ackNr).toNat ∧ (n - s.ackNr).toNat ≤ sackBits (s.header ty id seq now) + 1 := by
  have hlen := length_maskOf s
  unfold maxSackBytes at hlen
  show sackIsSet (s.buildSelectiveAck.getD []) (sackBitOf (s.ackNr + 2) n) = true ↔
    n ∈ s.reorder.keys ∧ 2 ≤ (n - s.ackNr).toNat ∧ (n - s.ackNr).toNat ≤ (s.buildSelectiveAck.getD []).length * 8 + 1
  rw [sackIsSet_buildSelectiveAck, sackBitOf_lt_iff (by omega)]
  constructor
  · rintro ⟨hdist, m, hm, hbit⟩
    rw [sackBitOf_inj hbit] at hm
    exact ⟨hm, hdist⟩
  · rintro ⟨hm, hdist⟩
    exact ⟨hdist, n, hm, rfl⟩

/-- A packet built by any state decodes to a header and the payload after it, and its mask names exactly the buffered numbers at a
distance from two to the number of its bits plus one. A header and payload come back from their encoding exactly when the selective
ack is missing or is a multiple of four bytes long, from 4 to 252. -/
theorem selective_ack_round_trip :
    (∀ (s : ConnState F) (ty : PacketType) (id seq : UInt16) (now : Nat) (payload : List UInt8),
      ∃ h, UtpHeader.decode ((s.header ty id seq now).encode payload) = .ok (h, payload) ∧ h.ackNr = s.ackNr ∧
        ∀ n, sackNames h n = true ↔ n ∈ s.reorder.keys ∧ 2 ≤ (n - s.ackNr).toNat ∧ (n - s.ackNr).toNat ≤ sackBits h + 1) ∧
      ∀ (h : UtpHeader) (payload : List UInt8), UtpHeader.decode (h.encode payload) = .ok (h, payload) ↔ h.Sendable := by
  refine ⟨fun s ty id seq now payload => ?_, fun h payload => ?_⟩
  · refine ⟨s.header ty id seq now, UtpHeader.decode_encode (sendable_header s ty id seq now) payload, rfl, ?_⟩
    exact sackNames_header s ty id seq now
  · exact ⟨UtpHeader.sendable_of_decode_encode, fun hs => UtpHeader.decode_encode hs payload⟩

/-- A header whose selective ack is three bytes long. -/
def shortSack : UtpHeader := ⟨.state, 1, 0, 0, 1000000, 100, 7, some [1, 2, 3]⟩

/-- Its selective ack is lost on the way. -/
theorem short_sack_lost : ¬ ∀ (h : UtpHeader) (payload : List UInt8), UtpHeader.decode (h.encode payload) = .ok (h, payload) := by
  intro hall
  have hsendable := UtpHeader.sendable_of_decode_encode (hall shortSack [])
  exact absurd (hsendable [1, 2, 3] rfl).1 (by decide)

end ConnState

/-!
## Acks acknowledge what they say

The cumulative ack takes a packet out of the queue only if the acked number is its own or a later one that was sent, except for a
number exactly half a circle behind the newest when that is the only packet left. The selective ack takes out exactly the packets
whose bits are set, and resends exactly those that have enough set bits after them.
-/

namespace ConnState

variable {F : Type} [F64 F]

/-! ### The cumulative ack -/

/-- A packet that the cumulative ack takes out is not after the acked number, and neither is the front of the queue. -/
theorem of_mem_removedByAck {s : ConnState F} {h : UtpHeader} {now : Nat} {p : OutPacket} (hp : p ∈ s.removedByAck h now) :
    s.returnsEarly h = false ∧ seqAfter p.seqNr h.ackNr = false ∧ ∃ q rest, s.unacked = q :: rest ∧ seqAfter q.seqNr h.ackNr = false := by
  unfold removedByAck at hp
  simp only [List.mem_filter, decide_not, Bool.not_eq_true', decide_eq_false_iff_not] at hp
  obtain ⟨hmem, hgone⟩ := hp
  cases hearly : s.returnsEarly h with
  | true =>
    rw [cumulativeAck, hearly] at hgone
    exact absurd (List.mem_map_of_mem hmem) hgone
  | false =>
    rw [seqNrs_cumulativeAck hearly] at hgone
    have hdrop : p ∉ s.unacked.dropWhile (fun p => !seqAfter p.seqNr h.ackNr) := fun hin => hgone (List.mem_map_of_mem hin)
    have htake : p ∈ s.unacked.takeWhile (fun p => !seqAfter p.seqNr h.ackNr) := by
      rw [← List.takeWhile_append_dropWhile (p := fun p => !seqAfter p.seqNr h.ackNr) (l := s.unacked)] at hmem
      exact (List.mem_append.mp hmem).resolve_right hdrop
    have hpopped : seqAfter p.seqNr h.ackNr = false := by
      have := List.mem_takeWhile_imp htake
      simpa using this
    refine ⟨rfl, hpopped, ?_⟩
    cases hun : s.unacked with
    | nil =>
      rw [hun] at hmem
      cases hmem
    | cons q rest =>
      refine ⟨q, rest, rfl, ?_⟩
      by_contra hq
      rw [hun, List.takeWhile_cons_of_neg (by simp [hq])] at htake
      cases htake

/-- The cumulative ack of a packet takes out only packets whose number it acks, and nothing when the acked number is neither that
of a packet of the queue nor the one before the oldest; unless the queue holds a single packet and the acked number is half a
circle behind it. -/
theorem cumulative_ack_sound (s : ConnState F) (h : UtpHeader) (now : Nat) (hc : s.Consecutive) (hlen : s.unacked.length ≤ 2 ^ 15) :
    ((∀ p ∈ s.removedByAck h now, SeqBetween p.seqNr (s.seqNr - 1) h.ackNr) ∧
      (¬ SeqBetween (s.oldest - 1) (s.seqNr - 1) h.ackNr → s.removedByAck h now = [])) ↔
    s.returnsEarly h = true ∨ s.unacked.length ≠ 1 ∨ h.ackNr ≠ s.seqNr - 1 - 0x8000 := by
  constructor
  · rintro ⟨hacked, -⟩
    by_contra hbad
    push Not at hbad
    obtain ⟨hearly, hone, hhalf⟩ := hbad
    rw [ne_eq, Bool.not_eq_true] at hearly
    obtain ⟨p, hun⟩ := List.length_eq_one_iff.mp hone
    have hp : p.seqNr = s.seqNr - 1 := by
      have := hc 0 p (by rw [hun]; rfl)
      rwa [hun] at this
    -- the only packet is taken out, though the acked number is no number of the queue
    have hpopped : seqAfter p.seqNr h.ackNr = false := by
      rw [hp, hhalf]
      generalize s.seqNr - 1 = newest
      unfold seqAfter
      rw [show newest - (newest - 0x8000) = 0x8000 by grind]
      rfl
    have hgone : p ∈ s.removedByAck h now := by
      unfold removedByAck
      rw [seqNrs_cumulativeAck hearly, hun]
      simp [hpopped]
    have hbetween := hacked p hgone
    rw [hp, hhalf] at hbetween
    unfold SeqBetween at hbetween
    generalize s.seqNr - 1 = newest at hbetween
    rw [show newest - 0x8000 - newest = 0x8000 by grind, show newest - newest = 0 by grind] at hbetween
    exact absurd hbetween (by decide)
  · intro hgood
    -- a packet that is taken out is at most as far behind the newest as the acked number
    have hdist : ∀ p ∈ s.removedByAck h now, ∃ m, 0 < m ∧ m ≤ s.unacked.length ∧ p.seqNr = s.seqNr - UInt16.ofNat m ∧
        (s.seqNr - 1 - h.ackNr).toNat < m := by
      intro p hp
      obtain ⟨hearly, hpopped, q, rest, hun, hfront⟩ := of_mem_removedByAck hp
      have hahead : seqAfter h.ackNr (s.seqNr - 1) = false := by
        unfold returnsEarly at hearly
        simp only [Bool.or_eq_false_iff] at hearly
        exact hearly.2
      obtain ⟨i, hi⟩ := List.getElem?_of_mem (List.mem_of_mem_filter hp)
      have hlt : i < s.unacked.length := (List.getElem?_eq_some_iff.mp hi).1
      have hpseq := hc i p hi
      have hqseq := hc 0 q (by rw [hun]; rfl)
      rw [hpseq] at hpopped
      rw [hqseq, Nat.sub_zero] at hfront
      refine ⟨s.unacked.length - i, by omega, by omega, hpseq, ?_⟩
      rcases behind_of_not_seqAfter (by omega) (by omega) hahead hpopped with hacked | ⟨hhalf, _⟩
      · exact hacked
      · rcases behind_of_not_seqAfter (by omega) hlen hahead hfront with hacked | ⟨_, hone⟩
        · exfalso
          rw [hhalf, show s.seqNr - 1 - (s.seqNr - 1 - 0x8000) = 0x8000 by grind] at hacked
          have : (0x8000 : UInt16).toNat = 2 ^ 15 := rfl
          omega
        · rcases hgood with hearly' | hlength | hack
          · rw [hearly] at hearly'
            cases hearly'
          · exact absurd hone hlength
          · exact absurd hhalf hack
    constructor
    · intro p hp
      obtain ⟨m, hpos, hm, hseq, hacked⟩ := hdist p hp
      rw [hseq]
      exact (seqBetween_iff hpos (by omega)).mpr hacked
    · intro houtside
      rw [List.eq_nil_iff_forall_not_mem]
      intro p hp
      obtain ⟨m, _, hm, _, hacked⟩ := hdist p hp
      apply houtside
      rw [hc.oldest_sub_one]
      exact (seqBetween_iff (by omega) (by omega)).mpr (by omega)

/-- A dial under the number 7 that is answered, and one packet of data, numbered 8. -/
def oneSent : ConnState ℚ :=
  [(0, ConnOp.startInitiator false 7),
    (1000000, .handlePacket (peerPacket .state 100 7) []),
    (1000000, .pollWrite [1, 2]),
    (1000000, .fillSendWindow)].foldl (fun s e => e.2.apply s e.1) (ConnState.new (.v4 0x7f000001 6881) 2 .initiator 0 0)

/-- One packet is in flight, and the ack is for it. -/
theorem cumulative_ack_sound_one_sent :
    oneSent.unacked.map (fun p => p.seqNr) = [8] ∧
      (((∀ p ∈ oneSent.removedByAck (peerPacket .state 100 8) 2000000, SeqBetween p.seqNr (oneSent.seqNr - 1) 8) ∧
        (¬ SeqBetween (oneSent.oldest - 1) (oneSent.seqNr - 1) 8 →
          oneSent.removedByAck (peerPacket .state 100 8) 2000000 = [])) ↔
      oneSent.returnsEarly (peerPacket .state 100 8) = true ∨ oneSent.unacked.length ≠ 1 ∨ (8 : UInt16) ≠ oneSent.seqNr - 1 - 0x8000) :=
  ⟨by decide +kernel, cumulative_ack_sound oneSent (peerPacket .state 100 8) 2000000 (by decide +kernel) (by decide +kernel)⟩

/-- The acked number half a circle behind packet 8 takes it out of the queue. -/
theorem half_circle_ack_removes :
    ¬ ∀ (s : ConnState ℚ) (h : UtpHeader) (now : Nat), s.Consecutive → s.unacked.length ≤ 2 ^ 15 →
      (∀ p ∈ s.removedByAck h now, SeqBetween p.seqNr (s.seqNr - 1) h.ackNr) ∧
        (¬ SeqBetween (s.oldest - 1) (s.seqNr - 1) h.ackNr → s.removedByAck h now = []) := by
  intro hall
  have hsound := hall oneSent (peerPacket .state 100 0x8008) 2000000 (by decide +kernel) (by decide +kernel)
  exact absurd (hsound.2 (by decide +kernel)) (by decide +kernel)

/-! ### The selective ack -/

/-- A selective ack takes out exactly the packets whose own bit is set, and resends exactly those of the rest that pass
`may_fast_resend` and have at least three set bits after them, counted afresh for each; a packet before the mask has all of its
set bits after it. -/
theorem selective_ack_exact (s : ConnState F) (hs : s.unacked.Pairwise (fun p q => seqAfter q.seqNr p.seqNr = true)) (ackNr : UInt16)
    (mask : List UInt8) (now : Nat) :
    (s.processSelectiveAck ackNr mask now).1.unacked =
      (s.unacked.filter (fun p => !isSacked ackNr mask p)).map (fun p =>
        if (s.removeSacked ackNr mask now).mayFastResend p now && decide (3 ≤ sackedAfter (ackNr + 2) mask p.seqNr)
        then p.fastResend now else p) := by
  unfold processSelectiveAck
  simp only
  split
  · rename_i hzero
    have hkeep : s.unacked.filter (fun p => !isSacked ackNr mask p) = s.unacked :=
      List.filter_eq_self.mpr (fun p _ => by rw [isSacked_of_no_bits hzero]; rfl)
    have hsame : ∀ p : OutPacket, (if (s.removeSacked ackNr mask now).isLost (ackNr + 2) mask now p then p.fastResend now else p) = p := by
      intro p
      rw [isLost_of_not_sacked _ hzero]
      rfl
    rw [hkeep]
    exact ((List.map_congr_left (fun p _ => hsame p)).trans (List.map_id' _)).symm
  · have hrest := unacked_removeSacked s ackNr mask now
    generalize s.removeSacked ackNr mask now = t at hrest ⊢
    have hsorted : t.unacked.Pairwise (fun p q => seqAfter q.seqNr p.seqNr = true) := by
      rw [hrest]
      exact hs.sublist List.filter_sublist
    have hscan := findLost_eq t (ackNr + 2) mask now hsorted 0 0 (fun p _ _ => Nat.zero_le _)
    have hresend := foldl_modify_indicesOf (t.isLost (ackNr + 2) mask now) (fun p => p.fastResend now) [] t.unacked
    rw [List.nil_append, List.nil_append, List.length_nil] at hresend
    show (t.resendLost (findLost t (ackNr + 2) mask (mask.map countOnes).sum now t.unacked 0 0 (setBelow mask 0)) now).unacked = _
    rw [unacked_resendLost, hscan, hresend, hrest]
    rfl

/-- The same dial with the packets 8 to 11 out. -/
def fourSent : ConnState ℚ :=
  [(1000000, ConnOp.transmitProbe [3]),
    (1000000, .transmitProbe [4, 5]),
    (1000000, .transmitProbe [6])].foldl (fun s e => e.2.apply s e.1) oneSent

/-- Of four packets the first is missing, and resent. -/
theorem selective_ack_exact_four_sent :
    (fourSent.processSelectiveAck 7 [7, 0, 0, 0] 2000000).1.unacked.map (fun p => (p.seqNr, p.fastResent)) = [(8, true)] ∧
      (fourSent.processSelectiveAck 7 [7, 0, 0, 0] 2000000).1.unacked =
        (fourSent.unacked.filter (fun p => !isSacked 7 [7, 0, 0, 0] p)).map (fun p =>
          if (fourSent.removeSacked 7 [7, 0, 0, 0] 2000000).mayFastResend p 2000000 &&
              decide (3 ≤ sackedAfter (7 + 2) [7, 0, 0, 0] p.seqNr)
          then p.fastResend 2000000 else p) :=
  ⟨by decide +kernel, selective_ack_exact fourSent (by decide +kernel) 7 [7, 0, 0, 0] 2000000⟩

/-- Packet 8 is resent though the mask, which starts at 9, does not cover it. -/
theorem resent_before_mask :
    ¬ ∀ (s : ConnState ℚ) (ackNr : UInt16) (mask : List UInt8) (now : Nat),
      s.unacked.Pairwise (fun p q => seqAfter q.seqNr p.seqNr = true) →
      ∀ p ∈ (s.processSelectiveAck ackNr mask now).1.unacked, p ∉ s.unacked → sackBitOf (ackNr + 2) p.seqNr < mask.length * 8 := by
  intro hall
  have hcovered := hall fourSent 7 [7, 0, 0, 0] 2000000 (by decide +kernel)
  exact absurd hcovered (by decide +kernel)

end ConnState

end Risuko
