import Risuko.Lemmas.UtpMtu

/-!
# What a step of a uTP connection can say

The part of the state of a connection that packets are made of (`Speech`), and the ways it changes (`Move`). Every step of the
driver and of the owner of the stream is a sequence of moves, so that an invariant about what is sent is proved once for each move.
-/

namespace Risuko

/-- What a packet keeps for as long as it is in the queue. -/
def OutPacket.content (p : OutPacket) : Nat × UInt16 × PacketType × List UInt8 := (p.number, p.seqNr, p.packetType, p.payload)

/-- The part of a connection that packets are made of: who it is, what it has to send, and what it has queued. -/
structure Speech where
  state : UtpState
  connIdSend : UInt16
  isInitiator : Bool
  seqNr : UInt16
  sendBuf : List UInt8
  contents : List (Nat × UInt16 × PacketType × List UInt8)
  probeOut : Option (UInt16 × List UInt8)
  outbox : List (List UInt8)
  error : Option ErrorKind
  pendingDeadline : Option Nat
  numbered : Nat

namespace ConnState

variable {F : Type}

/-- The contents of the queue. -/
def contents (s : ConnState F) : List (Nat × UInt16 × PacketType × List UInt8) := s.unacked.map OutPacket.content

def speech (s : ConnState F) : Speech where
  state := s.state
  connIdSend := s.connIdSend
  isInitiator := s.isInitiator
  seqNr := s.seqNr
  sendBuf := s.sendBuf
  contents := s.contents
  probeOut := s.probeOut
  outbox := s.outbox
  error := s.error
  pendingDeadline := s.pendingDeadline
  numbered := s.numbered

/-! ## Control functions -/

@[simp] theorem speech_updateMtuLimits (s : ConnState F) : s.updateMtuLimits.speech = s.speech := by
  unfold updateMtuLimits raiseMtuCeiling
  split
  · rfl
  · rfl

@[simp] theorem speech_onMtuProbeLost (s : ConnState F) (seq : UInt16) : (s.onMtuProbeLost seq).1.speech = s.speech := by
  unfold onMtuProbeLost
  split
  · split
    · rfl
    split
    · exact speech_updateMtuLimits { s with mtuCeiling := _ }
    · rfl
  · rfl

@[simp] theorem speech_onLoss (s : ConnState F) : s.onLoss.speech = s.speech := by
  unfold onLoss
  split
  · rfl
  · rfl

@[simp] theorem speech_endRecovery (s : ConnState F) (ackNr : UInt16) : (s.endRecovery ackNr).speech = s.speech := by
  unfold endRecovery
  split
  · split
    · rfl
    · rfl
  · rfl

/-! ## Resends -/

/-- A packet of the queue is replaced by one of the same content. -/
theorem contents_set {s : ConnState F} {idx : Nat} {p p' : OutPacket} (hp : s.unacked[idx]? = some p) (hc : p'.content = p.content) :
    ({ s with unacked := s.unacked.set idx p' } : ConnState F).contents = s.contents := by
  obtain ⟨hlt, hget⟩ := List.getElem?_eq_some_iff.mp hp
  show (s.unacked.set idx p').map OutPacket.content = s.unacked.map OutPacket.content
  rw [List.map_set, hc, ← hget]
  exact List.ext_getElem (by simp) (fun i _ _ => by
    rw [List.getElem_set]
    split
    · rename_i hi
      subst hi
      rw [List.getElem_map]
    · rfl)

theorem speech_congr {s : ConnState F} {L : List OutPacket} (h : L.map OutPacket.content = s.contents) :
    ({ s with unacked := L } : ConnState F).speech = s.speech := by
  show { s.speech with contents := L.map OutPacket.content } = s.speech
  rw [h]
  rfl

@[simp] theorem speech_setFastResent (s : ConnState F) (idx : Nat) : (s.setFastResent idx).speech = s.speech :=
  speech_congr (map_modify_eq (f := OutPacket.markFastResent) (fun _ => rfl) idx s.unacked)

theorem speech_markResent {s : ConnState F} {idx : Nat} {p : OutPacket} (hp : s.unacked[idx]? = some p) (now : Nat) :
    (s.markResent idx p now).speech = s.speech := by
  let resent : OutPacket := { p with sentAt := now, transmissions := p.transmissions + 1, needResend := false }
  have hcontents : ({ s with unacked := s.unacked.set idx resent } : ConnState F).contents = s.contents := contents_set hp rfl
  have hset := speech_congr hcontents
  unfold markResent
  simp only
  split
  · exact hset
  · exact hset

end ConnState

end Risuko
