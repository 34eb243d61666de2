import Risuko.Utp.Stream

/-!
# What the control functions of a uTP connection leave alone

The data of both directions of a connection (`ConnCore`): the numbers, the buffers, the queues and their counters. The
functions of the MTU search, the round-trip estimate, the windows and the timers change none of it.
-/

namespace Risuko

/-- The data of both directions of a connection. -/
structure ConnCore where
  state : UtpState
  remote : SocketAddr
  connIdSend : UInt16
  seqNr : UInt16
  ackNr : UInt16
  sendBuf : List UInt8
  unacked : List OutPacket
  inFlight : Nat
  resendCount : Nat
  recvReady : List UInt8
  reorder : OrdMap UInt16 (List UInt8)
  reorderBytes : Nat
  peerWnd : UInt32
  wantFin : Bool
  peerFin : Option UInt16
  readerGone : Bool
  probeOut : Option (UInt16 × List UInt8)
  outbox : List (List UInt8)
  error : Option ErrorKind
  numbered : Nat
  underflow : Bool

namespace ConnState

variable {F : Type}
variable {n k now : Nat} {s : ConnState F}

def core (s : ConnState F) : ConnCore where
  state := s.state
  remote := s.remote
  connIdSend := s.connIdSend
  seqNr := s.seqNr
  ackNr := s.ackNr
  sendBuf := s.sendBuf
  unacked := s.unacked
  inFlight := s.inFlight
  resendCount := s.resendCount
  recvReady := s.recvReady
  reorder := s.reorder
  reorderBytes := s.reorderBytes
  peerWnd := s.peerWnd
  wantFin := s.wantFin
  peerFin := s.peerFin
  readerGone := s.readerGone
  probeOut := s.probeOut
  outbox := s.outbox
  error := s.error
  numbered := s.numbered
  underflow := s.underflow

/-! ## Control functions -/

@[simp] theorem core_notifyWrite (s : ConnState F) : s.notifyWrite.core = s.core := rfl

@[simp] theorem core_noteCwndBlock (s : ConnState F) (len now : Nat) : (s.noteCwndBlock len now).core = s.core := by
  unfold noteCwndBlock
  split
  · rfl
  · rfl

@[simp] theorem core_updateMtuLimits (s : ConnState F) : s.updateMtuLimits.core = s.core := by
  unfold updateMtuLimits raiseMtuCeiling
  split
  · rfl
  · rfl

@[simp] theorem core_maybeReopenMtuSearch (s : ConnState F) (now : Nat) : (s.maybeReopenMtuSearch now).core = s.core := by
  unfold maybeReopenMtuSearch
  split
  · rfl
  split
  · rfl
  · rfl

@[simp] theorem core_onMtuProbeAcked (s : ConnState F) (seq : UInt16) : (s.onMtuProbeAcked seq).core = s.core := by
  unfold onMtuProbeAcked
  split
  · split
    · exact core_updateMtuLimits (s.setMtuFloor _)
    · rfl
  · rfl

@[simp] theorem core_onMtuProbeLost (s : ConnState F) (seq : UInt16) : (s.onMtuProbeLost seq).1.core = s.core := by
  unfold onMtuProbeLost
  split
  · split
    · rfl
    split
    · exact core_updateMtuLimits { s with mtuCeiling := _ }
    · rfl
  · rfl

@[simp] theorem core_onLoss (s : ConnState F) : s.onLoss.core = s.core := by
  unfold onLoss
  split
  · rfl
  · rfl

@[simp] theorem core_updateRtt [F64 F] (s : ConnState F) (sample : Nat) : (s.updateRtt sample).core = s.core := rfl

@[simp] theorem core_sampleAcked [F64 F] (s : ConnState F) (seq : UInt16) (elapsed : Nat) :
    (s.sampleAcked seq elapsed).core = s.core := by
  rw [sampleAcked, core_onMtuProbeAcked, core_updateRtt]

theorem core_foldl_sampleAcked [F64 F] (now : Nat) (L : List OutPacket) (s : ConnState F) :
    (L.foldl (fun s p => s.sampleAcked p.seqNr (now - p.sentAt)) s).core = s.core := by
  induction L generalizing s with
  | nil => rfl
  | cons p L ih => rw [List.foldl_cons, ih, core_sampleAcked]

@[simp] theorem core_sampleAll [F64 F] (s : ConnState F) (gone : List OutPacket) (now : Nat) :
    (s.sampleAll gone now).core = s.core := core_foldl_sampleAcked now _ s

@[simp] theorem core_endRecovery (s : ConnState F) (ackNr : UInt16) : (s.endRecovery ackNr).core = s.core := by
  unfold endRecovery
  split
  · split
    · rfl
    · rfl
  · rfl

@[simp] theorem core_judgeLost (lost : List Nat) (s : ConnState F) (congestion : Bool) :
    (judgeLost lost s congestion).1.core = s.core := by
  induction lost generalizing s congestion with
  | nil => rfl
  | cons idx rest ih =>
    unfold judgeLost
    split
    · exact ih s congestion
    · simp only [ih, core_onMtuProbeLost]

@[simp] theorem core_delayFactor [F64 F] (s : ConnState F) (theirDelay : UInt32) (now : Nat) :
    (s.delayFactor theirDelay now).1.core = s.core := by
  unfold delayFactor
  split
  · rfl
  · rfl

@[simp] theorem core_updateCwnd [F64 F] (s : ConnState F) (theirDelay : UInt32) (ackedBytes now : Nat) :
    (s.updateCwnd theirDelay ackedBytes now).core = s.core := by
  unfold updateCwnd
  split
  · rfl
  · exact core_delayFactor s theirDelay now

@[simp] theorem core_notePaced [F64 F] (s : ConnState F) (burst : Nat) (paced : Bool) (now : Nat) :
    (s.notePaced burst paced now).core = s.core := by
  unfold notePaced
  split
  · rfl
  · rfl

@[simp] theorem core_armProbe (s : ConnState F) (now : Nat) : (s.armProbe now).core = s.core := by
  unfold armProbe
  simp only
  split
  · rfl
  · rfl

@[simp] theorem core_noteWindowUpdate (s : ConnState F) : s.noteWindowUpdate.core = s.core := by
  unfold noteWindowUpdate
  simp only
  split
  · rfl
  · rfl

@[simp] theorem core_noteEof (s : ConnState F) : s.noteEof.core = s.core := by
  unfold noteEof
  split
  · split
    · rfl
    · rfl
  · rfl

@[simp] theorem core_checkProbe (s : ConnState F) (now : Nat) : (s.checkProbe now).core = s.core := by
  unfold checkProbe
  split
  · rfl
  · rfl

/-! ## Sending zeros -/

/-- The bytes of a run in which only their number counts. -/
def zeros (n : Nat) : List UInt8 := List.replicate n 0

def holding (s : ConnState F) (n : Nat) : ConnState F := { s with sendBuf := zeros n }

/-- The loop of the new packets over a buffer of zeros, of which it keeps the length. -/
def sendLoopZeros (burst now : Nat) : Nat → Nat → ConnState F → Nat → ConnState F × Nat × Bool
  | 0, n, s, _ => (s, n, false)
  | fuel + 1, n, s, sent =>
    if n = 0 then (s, n, false)
    else if s.shouldProbe && decide (n ≥ s.probePayload) && s.maySend s.probePayload then
      sendLoopZeros burst now fuel (n - s.probePayload) (s.transmitProbe (zeros s.probePayload) now) (sent + 1)
    else if min n s.packetSize < s.packetSize ∧ s.bytesInFlight > 0 ∧ !s.wantFin then (s, n, false)
    else if !s.maySend (min n s.packetSize) then (s.noteCwndBlock (min n s.packetSize) now, n, false)
    else if sent ≥ burst then (s, n, true)
    else
      sendLoopZeros burst now fuel (n - min n s.packetSize) (s.transmitNew .data (zeros (min n s.packetSize)) now) (sent + 1)

theorem takeSend_holding (s : ConnState F) (h : k ≤ n) : (s.holding n).takeSend k = (zeros k, s.holding (n - k)) := by
  unfold takeSend holding zeros
  rw [List.take_replicate, Nat.min_eq_left h, List.drop_replicate]

theorem noteCwndBlock_holding (s : ConnState F) (n len now : Nat) :
    (s.holding n).noteCwndBlock len now = (s.noteCwndBlock len now).holding n := by
  unfold noteCwndBlock
  rw [apply_ite (fun s : ConnState F => s.holding n)]
  rfl

theorem sendProbe_holding (s : ConnState F) (h : k ≤ n) (now : Nat) :
    (s.holding n).sendProbe k now = (s.transmitProbe (zeros k) now).holding (n - k) := by
  unfold sendProbe
  rw [takeSend_holding s h]
  rfl

theorem sendData_holding (s : ConnState F) (h : k ≤ n) (now : Nat) :
    (s.holding n).sendData k now = (s.transmitNew .data (zeros k) now).holding (n - k) := by
  unfold sendData
  rw [takeSend_holding s h]
  rfl

theorem sendLoop_holding (burst now fuel n : Nat) (s : ConnState F) (sent : Nat) :
    sendLoop burst now fuel (s.holding n) sent =
      ((sendLoopZeros burst now fuel n s sent).1.holding (sendLoopZeros burst now fuel n s sent).2.1,
        (sendLoopZeros burst now fuel n s sent).2.2) := by
  induction fuel generalizing n s sent with
  | zero => rfl
  | succ fuel ih =>
    have hlen : (s.holding n).sendBuf.length = n := List.length_replicate ..
    have hempty : (s.holding n).sendBuf.isEmpty = decide (n = 0) := by
      cases n <;> rfl
    unfold sendLoop sendLoopZeros
    dsimp only
    rw [hlen, hempty]
    by_cases hn : n = 0
    · rw [if_pos hn, if_pos (decide_eq_true hn)]
    rw [if_neg hn, if_neg (by simpa using hn)]
    change (if (s.shouldProbe && decide (n ≥ s.probePayload) && s.maySend s.probePayload) = true then _ else
      if min n s.packetSize < s.packetSize ∧ s.bytesInFlight > 0 ∧ !s.wantFin then _ else
      if (!s.maySend (min n s.packetSize)) = true then _ else _) = _
    by_cases hprobe : (s.shouldProbe && decide (n ≥ s.probePayload) && s.maySend s.probePayload) = true
    · rw [if_pos hprobe, if_pos hprobe]
      have hk : s.probePayload ≤ n := by
        simp only [Bool.and_eq_true, decide_eq_true_eq] at hprobe
        exact hprobe.1.2
      rw [← ih, ← sendProbe_holding s hk]
      rfl
    rw [if_neg hprobe, if_neg hprobe]
    by_cases hnagle : min n s.packetSize < s.packetSize ∧ s.bytesInFlight > 0 ∧ !s.wantFin
    · rw [if_pos hnagle, if_pos hnagle]
    rw [if_neg hnagle, if_neg hnagle]
    by_cases hmay : (!s.maySend (min n s.packetSize)) = true
    · rw [if_pos hmay, if_pos hmay, ← noteCwndBlock_holding]
      rfl
    rw [if_neg hmay, if_neg hmay]
    by_cases hburst : sent ≥ burst
    · rw [if_pos hburst, if_pos hburst]
    rw [if_neg hburst, if_neg hburst]
    rw [← ih, ← sendData_holding s (Nat.min_le_left ..)]
    rfl

def unpaced (s : ConnState F) : ConnState F := { s with paceAt := none }

/-- The state in which the new packets of a fill are sent. -/
def opened (s : ConnState F) (n now : Nat) : ConnState F := if n = 0 then s.unpaced else s.unpaced.maybeReopenMtuSearch now

theorem opened_holding (s : ConnState F) (n now : Nat) :
    (if (s.holding n).unpaced.sendBuf.isEmpty then (s.holding n).unpaced else (s.holding n).unpaced.maybeReopenMtuSearch now) =
      (s.opened n now).holding n := by
  cases n with
  | zero => rfl
  | succ n =>
    change (s.holding (n + 1)).unpaced.maybeReopenMtuSearch now = (s.unpaced.maybeReopenMtuSearch now).holding (n + 1)
    unfold maybeReopenMtuSearch
    rw [apply_ite (fun s : ConnState F => s.holding (n + 1)), apply_ite (fun s : ConnState F => s.holding (n + 1))]
    rfl

/-- A fill of a buffer of zeros, of which it keeps the length. -/
def fillZeros [F64 F] (s : ConnState F) (n now : Nat) : ConnState F × Nat × Bool :=
  sendLoopZeros s.burstLimit now n n (s.opened n now) 0

def filled [F64 F] (s : ConnState F) (n now : Nat) : ConnState F :=
  (((s.fillZeros n now).1.holding (s.fillZeros n now).2.1).notePaced s.burstLimit (s.fillZeros n now).2.2 now).armProbe now

theorem fillSendWindow_holding [F64 F] (s : ConnState F) (n now : Nat) (hstate : s.state = .connected)
    (hpace : s.paceAt.any (fun at_ => now < at_) = false) (hresend : s.resendCount = 0) :
    (s.holding n).fillSendWindow now = s.filled n now := by
  have hlive : ¬ ((s.holding n).state = .synSent ∨ (s.holding n).state = .closed) := by
    change ¬ (s.state = .synSent ∨ s.state = .closed)
    simp [hstate]
  have hdue : ¬ (s.holding n).paceAt.any (fun at_ => now < at_) = true := by
    intro h
    exact Bool.false_ne_true (hpace.symm.trans h)
  have hloop : resendLoop s.burstLimit now s.resendCount (s.holding n).unpaced 0 = ((s.holding n).unpaced, 0, false) := by
    rw [hresend]
    rfl
  have hnew : (s.holding n).unpaced.sendNew s.burstLimit 0 false now =
      ((s.fillZeros n now).1.holding (s.fillZeros n now).2.1, (s.fillZeros n now).2.2) := by
    have hlen : ((s.opened n now).holding n).sendBuf.length = n := List.length_replicate ..
    unfold sendNew
    rw [if_pos (show (s.holding n).unpaced.state = .connected ∧ !false from ⟨hstate, rfl⟩)]
    dsimp only
    rw [opened_holding, hlen, sendLoop_holding]
    rfl
  unfold fillSendWindow
  rw [if_neg hlive, if_neg hdue]
  change (fun r : ConnState F × Nat × Bool => (((r.1.sendNew s.burstLimit r.2.1 r.2.2 now).1.notePaced s.burstLimit
    (r.1.sendNew s.burstLimit r.2.1 r.2.2 now).2 now).armProbe now))
    (resendLoop s.burstLimit now s.resendCount (s.holding n).unpaced 0) = _
  rw [hloop]
  dsimp only
  rw [hnew]
  rfl

theorem pollWrite_holding (s : ConnState F) (n k : Nat) (herror : s.error = none) (hstate : s.state = .connected)
    (hfin : s.wantFin = false) (hk : 0 < k) (hroom : n + k ≤ sendBufMax) :
    ((s.holding n).pollWrite (zeros k)).1 = s.holding (n + k) := by
  have hlen : (s.holding n).sendBuf.length = n := List.length_replicate ..
  have hopen : ¬ ((s.holding n).state = .finSent ∨ (s.holding n).state = .closed ∨ (s.holding n).wantFin = true) := by
    change ¬ (s.state = .finSent ∨ s.state = .closed ∨ s.wantFin = true)
    simp [hstate, hfin]
  have htake : (zeros k).take (min (zeros k).length (sendBufMax - n)) = zeros k := by
    rw [show (zeros k).length = k from List.length_replicate .., Nat.min_eq_left (by omega)]
    exact List.take_of_length_le (Nat.le_of_eq (List.length_replicate ..))
  unfold pollWrite
  split
  · rename_i kind hsome
    exact absurd (hsome.symm.trans herror) (Option.some_ne_none _)
  · rw [if_neg hopen, hlen]
    dsimp only
    rw [if_neg (by omega), htake]
    change (s.holding n).sendBuf ++ zeros k |> fun b => { s with sendBuf := b } = _
    unfold holding zeros
    rw [List.replicate_append_replicate]

/-- A connection with zeros to send that takes more of them and fills its window. -/
def Ready (s : ConnState F) (n now : Nat) : Prop :=
  s.sendBuf = zeros n ∧ s.error.isNone = true ∧ s.state = .connected ∧ s.wantFin = false ∧ s.resendCount = 0 ∧
    s.paceAt.any (fun at_ => now < at_) = false

instance (s : ConnState F) (n now : Nat) : Decidable (s.Ready n now) := inferInstanceAs (Decidable (_ ∧ _ ∧ _ ∧ _ ∧ _ ∧ _))

theorem Ready.fill [F64 F] (h : s.Ready n now) : s.fillSendWindow now = s.filled n now := by
  obtain ⟨hbuf, _, hstate, _, hresend, hpace⟩ := h
  have hs : s = s.holding n := by
    unfold holding
    rw [← hbuf]
  exact (congrArg (fillSendWindow · now) hs).trans (fillSendWindow_holding s n now hstate hpace hresend)

theorem Ready.write_fill [F64 F] (h : s.Ready n now) (hk : 0 < k)
    (hroom : n + k ≤ sendBufMax) : (s.pollWrite (zeros k)).1.fillSendWindow now = s.filled (n + k) now := by
  obtain ⟨hbuf, herror, hstate, hfin, hresend, hpace⟩ := h
  have hs : s = s.holding n := by
    unfold holding
    rw [← hbuf]
  have hwrite : (s.pollWrite (zeros k)).1 = s.holding (n + k) :=
    (congrArg (fun s : ConnState F => (s.pollWrite (zeros k)).1) hs).trans
      (pollWrite_holding s n k (Option.isNone_iff_eq_none.mp herror) hstate hfin hk hroom)
  rw [hwrite]
  exact fillSendWindow_holding s (n + k) now hstate hpace hresend

/-- The state after some steps. -/
def afterOps [F64 F] (s : ConnState F) (ops : List (Nat × ConnOp)) : ConnState F := ops.foldl (fun s e => e.2.apply s e.1) s

theorem afterOps_cons [F64 F] (s : ConnState F) (now : Nat) (op : ConnOp) (ops : List (Nat × ConnOp)) :
    afterOps s ((now, op) :: ops) = afterOps (op.apply s now) ops := rfl

theorem afterOps_nil [F64 F] (s : ConnState F) : afterOps s [] = s := rfl

/-- Bytes are written and the window filled. -/
theorem afterOps_write_fill [F64 F] (h : s.Ready n now) (hk : 0 < k) (hroom : n + k ≤ sendBufMax)
    (ops : List (Nat × ConnOp)) :
    afterOps s ((now, .pollWrite (List.replicate k 0)) :: (now, .fillSendWindow) :: ops) = afterOps (s.filled (n + k) now) ops := by
  rw [afterOps_cons, afterOps_cons, ← h.write_fill hk hroom]
  rfl

theorem afterOps_fill [F64 F] (h : s.Ready n now) (ops : List (Nat × ConnOp)) :
    afterOps s ((now, .fillSendWindow) :: ops) = afterOps (s.filled n now) ops := by
  rw [afterOps_cons, ← h.fill]
  rfl

end ConnState

end Risuko
