import Risuko.Lemmas.Blocklist
import Risuko.Lemmas.Duplicates
import Risuko.Lemmas.PeerQueues
import Risuko.Torrent.ConnBudget
import Risuko.Torrent.PeerPriority

/-!
# The peers of a torrent

Which peers a torrent knows, dials, keeps, counts and bans.
-/

namespace Risuko

/-!
## Duplicates: when the two sides agree

Two peers dial each other at the same time. Each side would take either connection alone, and each sees the two handshakes complete
in some order. They agree on the connection of the lower id, unless one side has no room for it beside the other connection, or
takes it for the connection it already has.
-/

/-- What one side knows of the two connections when neither handshake has completed: `pid` is its own dial, and the inbound
connection will be the next one it numbers. -/
structure Simultaneous where
  swarm : Swarm
  remoteId : Id20
  pid : Nat
  registryAddr : SocketAddr
  inboundAddr : SocketAddr
  reserve : Bool
  bound : Bool

namespace Simultaneous

/-- The handshake of its own dial. -/
def own (env : SwarmEnv) (v : Simultaneous) (s : Swarm) : Swarm := s.handshook env v.pid v.registryAddr v.remoteId

/-- The handshake of the other side's dial. -/
def theirs (env : SwarmEnv) (v : Simultaneous) (s : Swarm) : Swarm := s.addInboundPeer env v.inboundAddr v.remoteId v.reserve v.bound

/-- Both handshakes. -/
def after (env : SwarmEnv) (v : Simultaneous) (ownFirst : Bool) : Swarm :=
  if ownFirst then v.theirs env (v.own env v.swarm) else v.own env (v.theirs env v.swarm)

/-- The address its own dial went to. -/
def ownAddr (v : Simultaneous) : SocketAddr := v.swarm.dialledAddr v.pid v.registryAddr

/-- The two connections are the only ones to the peer, seen from one IP address, and each is taken where it is alone. -/
structure Alone (env : SwarmEnv) (v : Simultaneous) : Prop where
  distinct : v.remoteId ≠ v.swarm.ourPeerId
  sameIp : v.ownAddr.ip = v.inboundAddr.ip
  only : NoneFrom v.swarm.peers v.remoteId v.inboundAddr.ip
  fresh : v.pid < v.swarm.nextPid ∧ v.swarm.peers.get? v.pid = none ∧ v.pid ∉ v.swarm.inboundEvictions
  next : v.swarm.peers.get? v.swarm.nextPid = none
  own : (v.own env v.swarm).Keeps v.pid
  theirs : (v.theirs env v.swarm).Keeps v.swarm.nextPid

/-- The side of the lower id keeps its own dial, unless it sees the other connection first and that one fills its last place. The
side of the higher id keeps the inbound connection, unless it sees its own dial first and then finds the address taken or no place
left. -/
def Settles (env : SwarmEnv) (v : Simultaneous) (ownFirst : Bool) : Prop :=
  if v.swarm.ourPeerId < v.remoteId then ownFirst = true ∨ v.swarm.peers.size + 1 < v.swarm.maxPeers
  else
    ownFirst = false ∨
      ((v.inboundAddr ∉ v.swarm.knownAddrs ∨ v.ownAddr ≠ v.inboundAddr) ∧
        (v.swarm.peers.size + 1 - v.swarm.liveEvictions.length < v.swarm.maxPeers ∨
          ((v.swarm.withDialled v.pid v.registryAddr v.remoteId).inboundEvictionVictim env v.swarm.liveEvictions).isSome = true))

/-- The side keeps its own dial and not the other connection. -/
def KeepsOwn (v : Simultaneous) (s : Swarm) : Prop := s.Keeps v.pid ∧ ¬ s.Keeps v.swarm.nextPid

/-- The side keeps the other connection and not its own dial. -/
def KeepsTheirs (v : Simultaneous) (s : Swarm) : Prop := s.Keeps v.swarm.nextPid ∧ ¬ s.Keeps v.pid

variable {env : SwarmEnv} {v : Simultaneous}

/-- No other connection of the swarm leads to the remote peer. -/
theorem Alone.onlyOwn (h : v.Alone env) : NoneFrom v.swarm.peers v.remoteId v.ownAddr.ip := by
  rw [h.sameIp]
  exact h.only

/-- Nothing stands in the way of the dial. -/
theorem Alone.allowsDial (h : v.Alone env) :
    v.swarm.AllowsDial env v.pid v.registryAddr ∧ v.swarm.peers.size < v.swarm.maxPeers :=
  Swarm.allowsDial_of_keeps h.fresh.2.1 h.onlyOwn h.own

/-- Nothing stands in the way of the inbound connection. -/
theorem Alone.takesInbound (h : v.Alone env) : v.swarm.TakesInbound env v.inboundAddr v.reserve v.bound :=
  Swarm.takesInbound_of_keeps h.next h.only h.theirs

/-- The dial is added as a peer of the remote id. -/
theorem Alone.own_eq (h : v.Alone env) : v.own env v.swarm = v.swarm.withDialled v.pid v.registryAddr v.remoteId :=
  Swarm.handshook_alone h.fresh.2.1 h.onlyOwn h.allowsDial.1 h.allowsDial.2

/-- The inbound connection is added as a peer of the remote id. -/
theorem Alone.theirs_eq (h : v.Alone env) : v.theirs env v.swarm = v.swarm.withInbound env v.inboundAddr v.remoteId [] := by
  have hdup := resolveDuplicate_keep h.only v.swarm.ourPeerId false
  have heq := Swarm.addInboundPeer_of_takes h.takesInbound v.remoteId (by rw [hdup]; exact nofun)
  rw [hdup] at heq
  exact heq

/-- Its own dial is kept where nothing comes after it. -/
theorem Alone.keepsOwn_of_peers (h : v.Alone env) {s : Swarm}
    (hs : s.peers = (v.swarm.withDialled v.pid v.registryAddr v.remoteId).peers) : v.KeepsOwn s := by
  refine ⟨Swarm.keeps_insert s _ _ _ _ _ hs, Swarm.not_keeps_of_none ?_⟩
  rw [hs]
  show (v.swarm.peers.insert v.pid _).get? v.swarm.nextPid = none
  rw [OrdMap.get?_insert_of_ne _ _ (Nat.ne_of_gt h.fresh.1)]
  exact h.next

/-! ### Its own dial first -/

/-- When our handshake comes first, the inbound connection finds the dialled one. -/
theorem Alone.after_ownFirst (h : v.Alone env) : v.after env true = v.theirs env (v.swarm.withDialled v.pid v.registryAddr v.remoteId) := by
  show v.theirs env (v.own env v.swarm) = _
  rw [h.own_eq]

/-- Our lower id keeps the dialled connection, the higher one takes the inbound one. -/
theorem Alone.duplicate_ownFirst (h : v.Alone env) :
    resolveDuplicate (v.swarm.withDialled v.pid v.registryAddr v.remoteId).peers v.inboundAddr.ip (some v.remoteId)
        v.swarm.ourPeerId false =
      if v.swarm.ourPeerId < v.remoteId then .rejectNew else .replaceOld [v.pid] := by
  have hone := resolveDuplicate_one h.only h.distinct v.pid h.sameIp true false
  refine hone.trans ?_
  by_cases hlow : v.swarm.ourPeerId < v.remoteId
  · simp [hlow]
  · simp [hlow]

/-- With the lower id we keep what we dialled. -/
theorem Alone.ownFirst_low (h : v.Alone env) (hlow : v.swarm.ourPeerId < v.remoteId) : v.KeepsOwn (v.after env true) := by
  have hdup := h.duplicate_ownFirst
  rw [if_pos hlow] at hdup
  refine h.keepsOwn_of_peers ?_
  rw [h.after_ownFirst]
  exact Swarm.peers_addInboundPeer_refused (.inl hdup) v.reserve v.bound

/-- With the higher id we keep the inbound connection if there is room for it, else the dialled one. -/
theorem Alone.ownFirst_high (h : v.Alone env) (hhigh : ¬ v.swarm.ourPeerId < v.remoteId) :
    (v.Settles env true → v.KeepsTheirs (v.after env true)) ∧ (¬ v.Settles env true → v.KeepsOwn (v.after env true)) := by
  have hdup := h.duplicate_ownFirst
  rw [if_neg hhigh] at hdup
  have ht := h.takesInbound
  have htaken := Swarm.inboundAddrTaken_withDialled h.fresh.2.1 ht.free v.registryAddr v.remoteId
  have hroom := Swarm.hasRoom_withDialled env h.fresh.2.1 h.fresh.2.2 ht.running v.registryAddr v.remoteId
  have hsettles : v.Settles env true ↔
      ¬ (v.swarm.withDialled v.pid v.registryAddr v.remoteId).inboundAddrTaken env v.inboundAddr = true ∧
        (v.swarm.withDialled v.pid v.registryAddr v.remoteId).hasRoom env = true := by
    unfold Settles
    rw [if_neg hhigh, hroom, htaken, not_and_or, or_iff_right (by exact nofun)]
    rfl
  rw [h.after_ownFirst, hsettles]
  refine ⟨fun ⟨hfree, hhas⟩ => ?_, fun hnot => ?_⟩
  · have ht' : (v.swarm.withDialled v.pid v.registryAddr v.remoteId).TakesInbound env v.inboundAddr v.reserve v.bound :=
      ⟨ht.allowed, ht.running, by simpa using hfree, ht.dialable, hhas, ht.reserved, ht.bound⟩
    have heq := Swarm.addInboundPeer_of_takes ht' v.remoteId (fun hrej => by cases hdup.symm.trans hrej)
    have hpeers : (v.theirs env (v.swarm.withDialled v.pid v.registryAddr v.remoteId)).peers =
        ((v.swarm.withDialled v.pid v.registryAddr v.remoteId).abortPeers [v.pid]).peers.insert v.swarm.nextPid
          (.connected v.inboundAddr false (some v.remoteId)) := by
      refine (congrArg Swarm.peers heq).trans ?_
      show (Swarm.abortPeers _ (resolveDuplicate _ _ _ v.swarm.ourPeerId _).old).peers.insert _ _ = _
      rw [hdup]
      rfl
    have hown := congrArg (fun peers => OrdMap.get? peers v.pid) hpeers
    simp only [OrdMap.get?_insert_of_ne _ _ (Nat.ne_of_lt h.fresh.1)] at hown
    exact ⟨Swarm.keeps_insert _ _ _ _ _ _ hpeers, Swarm.not_keeps_of_aborted (List.mem_singleton.mpr rfl) hown⟩
  · refine h.keepsOwn_of_peers (Swarm.peers_addInboundPeer_refused (.inr ?_) v.reserve v.bound)
    rw [not_and_or, not_not, Bool.not_eq_true] at hnot
    exact hnot

/-! ### The other connection first -/

/-- Our lower id takes the dialled connection, the higher one keeps the inbound one. -/
theorem Alone.duplicate_theirsFirst (h : v.Alone env) :
    resolveDuplicate (v.swarm.withInbound env v.inboundAddr v.remoteId []).peers v.ownAddr.ip (some v.remoteId) v.swarm.ourPeerId
        true =
      if v.swarm.ourPeerId < v.remoteId then .replaceOld [v.swarm.nextPid] else .rejectNew := by
  have hone := resolveDuplicate_one h.only h.distinct v.swarm.nextPid rfl false true
  rw [h.sameIp, Swarm.withInbound, Swarm.abortPeers_nil]
  refine hone.trans ?_
  by_cases hlow : v.swarm.ourPeerId < v.remoteId
  · simp [hlow]
  · simp [hlow]

/-- The inbound connection gets a key of its own. -/
theorem Alone.new_theirsFirst (h : v.Alone env) :
    (v.swarm.withInbound env v.inboundAddr v.remoteId []).peers.get? v.pid = none := by
  rw [Swarm.withInbound, Swarm.abortPeers_nil]
  show (v.swarm.peers.insert v.swarm.nextPid _).get? v.pid = none
  rw [OrdMap.get?_insert_of_ne _ _ (Nat.ne_of_lt h.fresh.1)]
  exact h.fresh.2.1

/-- What becomes of the peers when its own dial comes second. -/
theorem Alone.peers_theirsFirst (h : v.Alone env) :
    (v.after env false).peers =
      let s := v.swarm.withInbound env v.inboundAddr v.remoteId []
      if v.swarm.ourPeerId < v.remoteId then
        if v.swarm.maxPeers ≤ v.swarm.peers.size + 1 then (s.abortPeers [v.swarm.nextPid]).peers
        else (s.abortPeers [v.swarm.nextPid]).peers.insert v.pid (.connected v.ownAddr true (some v.remoteId))
      else s.peers := by
  have hsize : (v.swarm.withInbound env v.inboundAddr v.remoteId []).peers.size = v.swarm.peers.size + 1 := by
    rw [Swarm.withInbound, Swarm.abortPeers_nil]
    exact Swarm.size_insert_of_none h.next _
  have hallows : (v.swarm.withInbound env v.inboundAddr v.remoteId []).AllowsDial env v.pid v.registryAddr :=
    ⟨h.allowsDial.1.running, h.allowsDial.1.allowed⟩
  have heq := Swarm.peers_handshook h.new_theirsFirst hallows v.remoteId
  rw [show v.after env false = v.own env (v.theirs env v.swarm) from rfl, h.theirs_eq]
  refine heq.trans ?_
  have hdup : resolveDuplicate (v.swarm.withInbound env v.inboundAddr v.remoteId []).peers
      ((v.swarm.withInbound env v.inboundAddr v.remoteId []).dialledAddr v.pid v.registryAddr).ip (some v.remoteId)
      (v.swarm.withInbound env v.inboundAddr v.remoteId []).ourPeerId true = _ := h.duplicate_theirsFirst
  have hmax : (v.swarm.withInbound env v.inboundAddr v.remoteId []).maxPeers = v.swarm.maxPeers := rfl
  simp only [hsize, hdup, hmax]
  by_cases hlow : v.swarm.ourPeerId < v.remoteId
  · simp only [hlow, if_true, reduceCtorEq, false_or, DuplicateAction.old]
    rfl
  · simp only [hlow, if_false, true_or, if_true, DuplicateAction.old, Swarm.abortPeers_nil]

/-- With the lower id we keep what we dialled, if there is room for it; else neither is kept. -/
theorem Alone.theirsFirst_low (h : v.Alone env) (hlow : v.swarm.ourPeerId < v.remoteId) :
    (v.Settles env false → v.KeepsOwn (v.after env false)) ∧ (¬ v.Settles env false → ¬ (v.after env false).Keeps v.pid ∧
      ¬ (v.after env false).Keeps v.swarm.nextPid) := by
  have hpeers := h.peers_theirsFirst
  simp only [if_pos hlow] at hpeers
  have hsettles : v.Settles env false ↔ ¬ v.swarm.maxPeers ≤ v.swarm.peers.size + 1 := by
    unfold Settles
    rw [if_pos hlow, or_iff_right Bool.false_ne_true, not_le]
  rw [hsettles]
  refine ⟨fun hroom => ?_, fun hfull => ?_⟩
  · rw [if_neg hroom] at hpeers
    have htheirs := congrArg (fun peers => OrdMap.get? peers v.swarm.nextPid) hpeers
    simp only [OrdMap.get?_insert_of_ne _ _ (Nat.ne_of_gt h.fresh.1)] at htheirs
    exact ⟨Swarm.keeps_insert _ _ _ _ _ _ hpeers, Swarm.not_keeps_of_aborted (List.mem_singleton.mpr rfl) htheirs⟩
  · rw [not_not] at hfull
    rw [if_pos hfull] at hpeers
    have htheirs := congrArg (fun peers => OrdMap.get? peers v.swarm.nextPid) hpeers
    refine ⟨Swarm.not_keeps_of_none ?_, Swarm.not_keeps_of_aborted (List.mem_singleton.mpr rfl) htheirs⟩
    rw [hpeers]
    exact Swarm.get?_abortPeers_of_none h.new_theirsFirst _

/-- With the higher id we keep the inbound connection. -/
theorem Alone.theirsFirst_high (h : v.Alone env) (hhigh : ¬ v.swarm.ourPeerId < v.remoteId) : v.KeepsTheirs (v.after env false) := by
  have hpeers := h.peers_theirsFirst
  simp only [if_neg hhigh] at hpeers
  refine ⟨Swarm.keeps_insert _ _ _ _ _ _ hpeers, Swarm.not_keeps_of_none ?_⟩
  rw [hpeers]
  exact h.new_theirsFirst

/-- The side of the lower id keeps its own dial or nothing. -/
theorem Alone.low (h : v.Alone env) (hlow : v.swarm.ourPeerId < v.remoteId) (ownFirst : Bool) :
    (v.Settles env ownFirst → v.KeepsOwn (v.after env ownFirst)) ∧ (¬ v.Settles env ownFirst →
      ¬ (v.after env ownFirst).Keeps v.pid ∧ ¬ (v.after env ownFirst).Keeps v.swarm.nextPid) := by
  cases ownFirst with
  | false => exact h.theirsFirst_low hlow
  | true =>
    refine ⟨fun _ => h.ownFirst_low hlow, fun hnot => absurd ?_ hnot⟩
    unfold Settles
    rw [if_pos hlow]
    exact .inl rfl

/-- The side of the higher id keeps the other connection or its own dial. -/
theorem Alone.high (h : v.Alone env) (hhigh : ¬ v.swarm.ourPeerId < v.remoteId) (ownFirst : Bool) :
    (v.Settles env ownFirst → v.KeepsTheirs (v.after env ownFirst)) ∧
      (¬ v.Settles env ownFirst → v.KeepsOwn (v.after env ownFirst)) := by
  cases ownFirst with
  | true => exact h.ownFirst_high hhigh
  | false =>
    refine ⟨fun _ => h.theirsFirst_high hhigh, fun hnot => absurd ?_ hnot⟩
    unfold Settles
    rw [if_neg hhigh]
    exact .inl rfl

end Simultaneous

/-- The two sides see each other's ids. -/
def Opposite (a b : Simultaneous) : Prop := a.remoteId = b.swarm.ourPeerId ∧ b.remoteId = a.swarm.ourPeerId

/-- Both sides keep the same one of the two connections: what one side dialled is inbound at the other. -/
def Converge (a b : Simultaneous) (s t : Swarm) : Prop := a.KeepsOwn s ∧ b.KeepsTheirs t ∨ a.KeepsTheirs s ∧ b.KeepsOwn t

/-- Convergence does not depend on which side is named first. -/
theorem Converge.symm {a b : Simultaneous} {s t : Swarm} (h : Converge a b s t) : Converge b a t s :=
  (Or.symm h).imp And.symm And.symm

/-- If we have the lower id and the remote peer the higher one, both keep our connection, whichever handshake comes first. -/
theorem converge_of_low {env env' : SwarmEnv} {a b : Simultaneous} (ha : a.Alone env) (hb : b.Alone env')
    (hlow : a.swarm.ourPeerId < a.remoteId) (hhigh : ¬ b.swarm.ourPeerId < b.remoteId) (ownFirst ownFirst' : Bool) :
    Converge a b (a.after env ownFirst) (b.after env' ownFirst') ↔ a.Settles env ownFirst ∧ b.Settles env' ownFirst' := by
  obtain ⟨haKeeps, haDrops⟩ := ha.low hlow ownFirst
  obtain ⟨hbKeeps, hbDrops⟩ := hb.high hhigh ownFirst'
  constructor
  · intro hconv
    by_contra hnot
    rcases not_and_or.mp hnot with hnotA | hnotB
    · rcases hconv with ⟨hown, _⟩ | ⟨htheirs, _⟩
      · exact (haDrops hnotA).1 hown.1
      · exact (haDrops hnotA).2 htheirs.1
    · -- the higher side has its own dial, which the lower side never keeps
      rcases hconv with ⟨_, htheirs⟩ | ⟨htheirs, _⟩
      · exact htheirs.2 (hbDrops hnotB).1
      · by_cases hA : a.Settles env ownFirst
        · exact htheirs.2 (haKeeps hA).1
        · exact (haDrops hA).2 htheirs.1
  · rintro ⟨hA, hB⟩
    exact .inl ⟨haKeeps hA, hbKeeps hB⟩

/-- Two peers that dial each other keep the same connection, whatever the order of the handshakes at each, exactly if neither side
is kept from the connection of the lower id: by a cap that counts the connection it has just told to end, or by an address it takes
for a second connection from there. -/
theorem duplicates_converge (env env' : SwarmEnv) (a b : Simultaneous) (hopp : Opposite a b) (ha : a.Alone env) (hb : b.Alone env')
    (ownFirst ownFirst' : Bool) :
    Converge a b (a.after env ownFirst) (b.after env' ownFirst') ↔ a.Settles env ownFirst ∧ b.Settles env' ownFirst' := by
  rcases Id20.lt_or_lt ha.distinct.symm with hlow | hlow
  · refine converge_of_low ha hb hlow ?_ ownFirst ownFirst'
    rw [hopp.2, ← hopp.1]
    exact Id20.lt_asymm hlow
  · have hhigh : b.swarm.ourPeerId < b.remoteId := by
      rw [← hopp.1, hopp.2]
      exact hlow
    rw [and_comm, ← converge_of_low hb ha hhigh (Id20.lt_asymm hlow) ownFirst' ownFirst]
    exact ⟨Converge.symm, Converge.symm⟩

/-- Nothing is blocked, punched or spared. -/
def openEnv : SwarmEnv where
  blocked := fun _ => false
  isTarget := fun _ => false
  redundantPeers := fun _ _ => []

def lowId : Id20 := ⟨List.replicate 20 1, rfl⟩

def highId : Id20 := ⟨List.replicate 20 9, rfl⟩

/-- A torrent without peers that has started one dial. -/
def dialling (ourPeerId : Id20) (remote : SocketAddr) (maxPeers : Nat) : Swarm where
  ourPeerId := ourPeerId
  peers := .empty
  pendingDials := OrdMap.empty.insert 0 remote
  knownAddrs := [remote]
  inboundEvictions := []
  nextPid := 1
  maxPeers := maxPeers
  paused := false
  privateTorrent := false
  trackerAuthorized := []
  complete := false

/-- One side, with the other at `192.0.2.host`. -/
def seenFrom (ourPeerId remoteId : Id20) (host : UInt32) (maxPeers : Nat) : Simultaneous where
  swarm := dialling ourPeerId (.v4 (0xc0000200 + host) 6881) maxPeers
  remoteId := remoteId
  pid := 0
  registryAddr := .v4 (0xc0000200 + host) 6881
  inboundAddr := .v4 (0xc0000200 + host) 50000
  reserve := true
  bound := true

/-- The side of the lower id, with a number of places. -/
def lowSide (maxPeers : Nat) : Simultaneous := seenFrom lowId highId 2 maxPeers

/-- The side of the higher id. -/
def highSide : Simultaneous := seenFrom highId lowId 1 50

theorem lowSide_alone : (lowSide 1).Alone openEnv ∧ (lowSide 50).Alone openEnv := by
  refine ⟨⟨by decide, rfl, fun pid p hp => (by cases hp), ⟨by decide, rfl, List.not_mem_nil⟩, rfl, ⟨_, rfl, rfl⟩, ⟨_, rfl, rfl⟩⟩,
    ⟨by decide, rfl, fun pid p hp => (by cases hp), ⟨by decide, rfl, List.not_mem_nil⟩, rfl, ⟨_, rfl, rfl⟩, ⟨_, rfl, rfl⟩⟩⟩

theorem highSide_alone : highSide.Alone openEnv :=
  ⟨by decide, rfl, fun pid p hp => (by cases hp), ⟨by decide, rfl, List.not_mem_nil⟩, rfl, ⟨_, rfl, rfl⟩, ⟨_, rfl, rfl⟩⟩

/-- With room at both sides they agree, although each sees the connection of the higher id first. -/
theorem duplicates_converge_crossed :
    (lowSide 50).Alone openEnv ∧ highSide.Alone openEnv ∧
      Converge (lowSide 50) highSide ((lowSide 50).after openEnv false) (highSide.after openEnv true) := by
  refine ⟨lowSide_alone.2, highSide_alone, ?_⟩
  refine (duplicates_converge openEnv openEnv _ _ ⟨rfl, rfl⟩ lowSide_alone.2 highSide_alone false true).mpr ⟨?_, ?_⟩
  · unfold Simultaneous.Settles
    rw [if_pos (by decide)]
    exact .inr (by decide)
  · unfold Simultaneous.Settles
    rw [if_neg (by decide)]
    exact .inr ⟨.inl (by decide), .inl (by decide)⟩

/-- The connection of the higher id fills the last place of the other side, which then drops both. -/
theorem both_dropped_at_cap :
    ¬ ∀ (env env' : SwarmEnv) (a b : Simultaneous), Opposite a b → a.Alone env → b.Alone env' → ∀ ownFirst ownFirst',
      Converge a b (a.after env ownFirst) (b.after env' ownFirst') := by
  intro hall
  have hconv := hall openEnv openEnv (lowSide 1) highSide ⟨rfl, rfl⟩ lowSide_alone.1 highSide_alone false false
  have hsettles := ((converge_of_low lowSide_alone.1 highSide_alone (by decide) (by decide) false false).mp hconv).1
  unfold Simultaneous.Settles at hsettles
  rw [if_pos (by decide)] at hsettles
  exact absurd hsettles (by decide)

/-!
## What a duplicate handshake leaves

A handshake that is to replace connections aborts them before the cap is looked at. So the peer is lost where the map is full, since the
connections it replaces still count; everywhere else the connections that are live afterwards are the ones the rule names.
-/

namespace Swarm

/-- A connection to the id that was not told to end. -/
def LiveAs (s : Swarm) (id : Id20) (q : Nat) : Prop := ∃ p, s.peers.get? q = some p ∧ p.peerId = some id ∧ p.aborted = false

/-- The connection is to the id and from the IP address, whether or not it was told to end. Our own id has no such connections. -/
def Beside (s : Swarm) (id : Id20) (ip : IpAddr) (q : Nat) : Prop :=
  id ≠ s.ourPeerId ∧ ∃ p, s.peers.get? q = some p ∧ p.peerId = some id ∧ p.addr.ip = ip

/-- A dial has the direction that is kept, and every connection beside it the other one. -/
def Prevails (s : Swarm) (id : Id20) (ip : IpAddr) : Prop :=
  ∀ q, s.Beside id ip q → s.ourPeerId < id ∧ ∀ p, s.peers.get? q = some p → p.outbound = false

/-- The handshake is of a dial to this IP address that is still in the registry, that no guard refuses, and that prevails over the connections
beside it. Only the cap can refuse it. -/
def Passes (env : SwarmEnv) (s : Swarm) (pid : Nat) (registry : Option SocketAddr) (id : Id20) (ip : IpAddr) : Prop :=
  ∃ registryAddr ∈ registry, ip = (s.dialledAddr pid registryAddr).ip ∧ s.AllowsDial env pid registryAddr ∧ s.peers.get? pid = none ∧ s.Prevails id ip

/-- One connection to the id is live after the handshake: it does not pass and there is one; or it passes, and with room no connection is live but
those beside it, and without room one is that is not beside it. -/
def OneLeft (env : SwarmEnv) (s : Swarm) (pid : Nat) (registry : Option SocketAddr) (id : Id20) : Prop :=
  ((¬ ∃ ip, s.Passes env pid registry id ip) ∧ ∃! q, s.LiveAs id q) ∨
    ∃ ip, s.Passes env pid registry id ip ∧
      if s.peers.size < s.maxPeers then ∀ q, s.LiveAs id q → s.Beside id ip q else ∃! q, s.LiveAs id q ∧ ¬ s.Beside id ip q

variable {env : SwarmEnv} {s : Swarm}

theorem liveAs_congr {s' : Swarm} (h : s'.peers = s.peers) (id : Id20) (q : Nat) : s'.LiveAs id q ↔ s.LiveAs id q := by
  rw [LiveAs, LiveAs, h]

/-- Aborting peers ends those and leaves the others. -/
theorem liveAs_abortPeers (old : List Nat) (id : Id20) (q : Nat) : (s.abortPeers old).LiveAs id q ↔ s.LiveAs id q ∧ q ∉ old := by
  unfold LiveAs abortPeers
  rw [OrdMap.get?_mapVal]
  constructor
  · rintro ⟨p', hp', hid, halive⟩
    obtain ⟨p, hp, rfl⟩ := Option.map_eq_some_iff.mp hp'
    by_cases hq : q ∈ old
    · rw [if_pos hq] at halive
      cases halive
    · rw [if_neg hq] at hid halive
      exact ⟨⟨p, hp, hid, halive⟩, hq⟩
  · rintro ⟨⟨p, hp, hid, halive⟩, hq⟩
    exact ⟨p, by rw [hp, Option.map_some, if_neg hq], hid, halive⟩

/-- What `resolve_duplicate` says to a dial: to replace the connections beside it if it prevails, and else to reject it. -/
theorem resolveDuplicate_spec (s : Swarm) (id : Id20) (ip : IpAddr) :
    (s.Prevails id ip → resolveDuplicate s.peers ip (some id) s.ourPeerId true ≠ .rejectNew ∧
      ∀ q, q ∈ (resolveDuplicate s.peers ip (some id) s.ourPeerId true).old ↔ s.Beside id ip q) ∧
    (¬ s.Prevails id ip → resolveDuplicate s.peers ip (some id) s.ourPeerId true = .rejectNew) := by
  unfold resolveDuplicate
  by_cases hown : id = s.ourPeerId
  · have hnone : ∀ q, ¬ s.Beside id ip q := fun q h => h.1 hown
    rw [Option.filter_some_neg (by simpa using hown)]
    refine ⟨fun _ => ⟨by rintro ⟨⟩, fun q => iff_of_false List.not_mem_nil (hnone q)⟩, fun hnot => absurd ?_ hnot⟩
    exact fun q h => absurd h (hnone q)
  · rw [Option.filter_some_pos (by simpa using hown)]
    dsimp only
    generalize hexisting : (s.peers.filter fun _ p => p.peerId = some id ∧ p.addr.ip = ip).entries = existing
    have hmem : ∀ e, e ∈ existing ↔ s.peers.get? e.1 = some e.2 ∧ e.2.peerId = some id ∧ e.2.addr.ip = ip := by
      intro e
      rw [← hexisting, OrdMap.mem_filter_entries, OrdMap.get?_eq_some_iff, decide_eq_true_iff]
    have hbeside : ∀ q, s.Beside id ip q ↔ q ∈ existing.map Prod.fst := by
      intro q
      rw [List.mem_map]
      constructor
      · rintro ⟨-, p, hp⟩
        exact ⟨(q, p), (hmem _).mpr hp, rfl⟩
      · rintro ⟨e, he, rfl⟩
        exact ⟨hown, e.2, (hmem e).mp he⟩
    cases existing with
    | nil =>
      refine ⟨fun _ => ⟨by rintro ⟨⟩, fun q => iff_of_false List.not_mem_nil fun h => List.not_mem_nil ((hbeside q).mp h)⟩,
        fun hnot => absurd ?_ hnot⟩
      exact fun q h => absurd ((hbeside q).mp h) List.not_mem_nil
    | cons first rest =>
      have hprevails : s.Prevails id ip ↔
          true = decide (s.ourPeerId < id) ∧ (first :: rest).all (fun e => e.2.outbound ≠ true) = true := by
        rw [List.all_eq_true, eq_comm, decide_eq_true_iff]
        constructor
        · intro h
          refine ⟨(h first.1 ((hbeside _).mpr (List.mem_map_of_mem List.mem_cons_self))).1, fun e he => ?_⟩
          have hout := (h e.1 ((hbeside _).mpr (List.mem_map_of_mem he))).2 e.2 ((hmem e).mp he).1
          simp [hout]
        · rintro ⟨hlow, hall⟩ q hq
          refine ⟨hlow, fun p hp => ?_⟩
          obtain ⟨e, he, rfl⟩ := List.mem_map.mp ((hbeside q).mp hq)
          obtain rfl := Option.some.inj (((hmem e).mp he).1.symm.trans hp)
          simpa using hall e he
      rw [List.isEmpty_cons, if_neg Bool.false_ne_true, hprevails]
      refine ⟨fun h => ?_, fun h => if_neg h⟩
      rw [if_pos h]
      exact ⟨by rintro ⟨⟩, fun q => (hbeside q).symm⟩

/-- A handshake that a guard refuses leaves the peers as they are. -/
theorem peers_handshook_of_not_allowed {pid : Nat} {registryAddr : SocketAddr} {id : Id20}
    (h : ¬ (s.AllowsDial env pid registryAddr ∧ s.peers.get? pid = none)) : (s.handshook env pid registryAddr id).peers = s.peers := by
  unfold handshook
  by_cases hpaused : s.paused = true
  · rw [if_pos hpaused]
  rw [if_neg hpaused]
  by_cases hknown : s.peers.contains pid = true
  · rw [if_pos hknown]
  rw [if_neg hknown]
  dsimp only
  split
  · rfl
  · rename_i hallowed
    rw [Bool.not_eq_true] at hpaused hknown hallowed
    rw [OrdMap.contains, Option.isSome_eq_false_iff, Option.isNone_iff_eq_none] at hknown
    exact absurd ⟨⟨hpaused, hallowed⟩, hknown⟩ h

/-- A handshake that does not pass leaves the peers as they are. -/
theorem peers_handshookEvent_refused {pid : Nat} {registry : Option SocketAddr} {id : Id20} (h : ¬ ∃ ip, s.Passes env pid registry id ip) :
    (s.handshookEvent env pid registry id).peers = s.peers := by
  unfold handshookEvent
  cases registry with
  | none =>
    dsimp only
    split <;> rfl
  | some registryAddr =>
    dsimp only
    by_cases hallows : s.AllowsDial env pid registryAddr ∧ s.peers.get? pid = none
    · have hloses : ¬ s.Prevails id (s.dialledAddr pid registryAddr).ip :=
        fun hprevails => h ⟨_, registryAddr, rfl, rfl, hallows.1, hallows.2, hprevails⟩
      rw [peers_handshook hallows.2 hallows.1 id, (resolveDuplicate_spec s id _).2 hloses]
      dsimp only
      rw [if_pos (.inl rfl)]
      exact congrArg Swarm.peers (abortPeers_nil s)
    · exact peers_handshook_of_not_allowed hallows

/-- A handshake that passes: the connections beside it are told to end in any case. -/
theorem peers_handshookEvent_passes {pid : Nat} {registry : Option SocketAddr} {id : Id20} {ip : IpAddr} (h : s.Passes env pid registry id ip) :
    s.peers.get? pid = none ∧ ∃ addr old, (∀ q, q ∈ old ↔ s.Beside id ip q) ∧ (s.handshookEvent env pid registry id).peers =
      if s.peers.size < s.maxPeers then (s.abortPeers old).peers.insert pid (.connected addr true (some id)) else (s.abortPeers old).peers := by
  obtain ⟨registryAddr, hregistry, rfl, hallows, hnew, hprevails⟩ := h
  obtain ⟨hkept, hold⟩ := (resolveDuplicate_spec s id _).1 hprevails
  obtain rfl := Option.mem_def.mp hregistry
  refine ⟨hnew, s.dialledAddr pid registryAddr, _, hold, ?_⟩
  rw [handshookEvent, peers_handshook hnew hallows id]
  simp only [hkept, false_or, ← not_lt, ite_not]

/-- The live connections to the id after a handshake that passes: those that are not beside it, and with room its own. -/
theorem liveAs_handshookEvent {pid : Nat} {registry : Option SocketAddr} {id : Id20} {ip : IpAddr} (h : s.Passes env pid registry id ip) (q : Nat) :
    (s.handshookEvent env pid registry id).LiveAs id q ↔ (s.peers.size < s.maxPeers ∧ q = pid) ∨ (s.LiveAs id q ∧ ¬ s.Beside id ip q) := by
  obtain ⟨hnew, addr, old, hold, hpeers⟩ := peers_handshookEvent_passes h
  rw [← hold, ← liveAs_abortPeers]
  by_cases hroom : s.peers.size < s.maxPeers
  · rw [if_pos hroom] at hpeers
    rw [LiveAs, hpeers, OrdMap.get?_insert]
    by_cases hq : q = pid
    · rw [if_pos hq]
      exact ⟨fun _ => .inl ⟨hroom, hq⟩, fun _ => ⟨_, rfl, rfl, rfl⟩⟩
    · rw [if_neg hq, or_iff_right fun h => hq h.2]
      rfl
  · rw [if_neg hroom] at hpeers
    rw [or_iff_right fun h => hroom h.1]
    exact liveAs_congr hpeers id q

/-- A handshake leaves exactly one live connection to the peer exactly if it does not pass and there was one, or it passes with room and all that are
live are beside it, or it passes without room and one of them is not beside it. With one live connection, beside it, that one is lost exactly if
the handshake passes and no place is left. -/
theorem duplicate_handshake_leaves_one (env : SwarmEnv) (s : Swarm) (pid : Nat) (registry : Option SocketAddr) (id : Id20) :
    ((∃! q, (s.handshookEvent env pid registry id).LiveAs id q) ↔ s.OneLeft env pid registry id) ∧
    ∀ q, (∀ q', s.LiveAs id q' ↔ q' = q) → (∀ registryAddr ∈ registry, s.Beside id (s.dialledAddr pid registryAddr).ip q) →
      ((∃! q', (s.handshookEvent env pid registry id).LiveAs id q') ↔
        ¬ ((∃ ip, s.Passes env pid registry id ip) ∧ s.maxPeers ≤ s.peers.size)) := by
  have hleft : (∃! q, (s.handshookEvent env pid registry id).LiveAs id q) ↔ s.OneLeft env pid registry id := by
    unfold OneLeft
    by_cases hpasses : ∃ ip, s.Passes env pid registry id ip
    · rw [or_iff_right fun h => h.1 hpasses]
      obtain ⟨ip, hip⟩ := hpasses
      have hone : ∀ ip', s.Passes env pid registry id ip' → ip' = ip := by
        rintro ip' ⟨addr', haddr', rfl, -⟩
        obtain ⟨addr, haddr, rfl, -⟩ := hip
        rw [Option.some.inj (haddr'.symm.trans haddr)]
      have hnew := (peers_handshookEvent_passes hip).1
      simp only [liveAs_handshookEvent hip]
      by_cases hroom : s.peers.size < s.maxPeers
      · simp only [hroom, if_true, true_and]
        constructor
        · rintro ⟨r, -, hunique⟩
          refine ⟨ip, hip, fun q hq => ?_⟩
          by_contra hbeside
          have hpid := hunique pid (.inl rfl)
          have hqr := hunique q (.inr ⟨hq, hbeside⟩)
          obtain ⟨p, hp, -⟩ := hq
          rw [hqr, ← hpid, hnew] at hp
          cases hp
        · rintro ⟨ip', hip', hall⟩
          obtain rfl := hone ip' hip'
          refine ⟨pid, .inl rfl, ?_⟩
          rintro q (hq | ⟨hq, hbeside⟩)
          · exact hq
          · exact absurd (hall q hq) hbeside
      · simp only [hroom, if_false, false_and, false_or]
        constructor
        · exact fun h => ⟨ip, hip, h⟩
        · rintro ⟨ip', hip', h⟩
          obtain rfl := hone ip' hip'
          exact h
    · simp only [liveAs_congr (peers_handshookEvent_refused hpasses)]
      exact ⟨fun h => .inl ⟨hpasses, h⟩, fun h => (h.resolve_right fun ⟨ip, hip, _⟩ => hpasses ⟨ip, hip⟩).2⟩
  refine ⟨hleft, fun q hlive hbeside => ?_⟩
  rw [hleft, OneLeft]
  by_cases hpasses : ∃ ip, s.Passes env pid registry id ip
  · rw [or_iff_right fun h => h.1 hpasses]
    have hat : ∀ ip, s.Passes env pid registry id ip → s.Beside id ip q := by
      rintro ip ⟨registryAddr, hregistry, rfl, -⟩
      exact hbeside registryAddr hregistry
    constructor
    · rintro ⟨ip, hip, hcase⟩ ⟨-, hfull⟩
      rw [if_neg (not_lt.mpr hfull)] at hcase
      obtain ⟨r, ⟨hr, hapart⟩, -⟩ := hcase
      rw [(hlive r).mp hr] at hapart
      exact hapart (hat ip hip)
    · intro hnot
      obtain ⟨ip, hip⟩ := hpasses
      refine ⟨ip, hip, ?_⟩
      rw [if_pos (not_le.mp fun hfull => hnot ⟨⟨ip, hip⟩, hfull⟩)]
      intro r hr
      rw [(hlive r).mp hr]
      exact hat ip hip
  · refine iff_of_true (.inl ⟨hpasses, q, (hlive q).mpr rfl, fun r hr => (hlive r).mp hr⟩) fun h => hpasses h.1

/-- A torrent of the lower id with an inbound connection to the peer it has also dialled. -/
def dialledBack (maxPeers : Nat) : Swarm :=
  { dialling lowId (.v4 0xc0000202 6881) maxPeers with
    peers := OrdMap.empty.insert 7 (.connected (.v4 0xc0000202 50000) false (some highId)) }

theorem dialledBack_live (maxPeers : Nat) (q : Nat) : (dialledBack maxPeers).LiveAs highId q ↔ q = 7 := by
  unfold LiveAs dialledBack
  simp only [OrdMap.get?_insert, OrdMap.get?_empty]
  split
  · rename_i hq
    exact ⟨fun _ => hq, fun _ => ⟨_, rfl, rfl, rfl⟩⟩
  · rename_i hq
    exact ⟨fun ⟨_, hp, _⟩ => (by cases hp), fun h => absurd h hq⟩

/-- Nothing but the comparison of ids is in the way. -/
theorem dialledBack_passes (maxPeers : Nat) : (dialledBack maxPeers).Passes openEnv 0 (some (.v4 0xc0000202 6881)) highId (.v4 0xc0000202) := by
  refine ⟨_, rfl, rfl, ⟨rfl, rfl⟩, rfl, ?_⟩
  rintro q ⟨-, p, hp, -⟩
  refine ⟨show lowId < highId by decide, fun p' hp' => ?_⟩
  unfold dialledBack at hp'
  rw [OrdMap.get?_insert, OrdMap.get?_empty] at hp'
  split at hp'
  · cases hp'
    rfl
  · cases hp'

/-- With the inbound connection in the last place, the handshake of the dial ends both. -/
theorem duplicate_handshake_loses_peer :
    ¬ ∀ (env : SwarmEnv) (s : Swarm) (pid : Nat) (registry : Option SocketAddr) (id : Id20), (∃ q, q ≠ pid ∧ s.LiveAs id q) →
      ∃! q, (s.handshookEvent env pid registry id).LiveAs id q := by
  intro hall
  obtain ⟨q, hq, -⟩ := hall openEnv (dialledBack 1) 0 (some (.v4 0xc0000202 6881)) highId ⟨7, by decide, (dialledBack_live 1 7).mpr rfl⟩
  rw [liveAs_handshookEvent (dialledBack_passes 1), dialledBack_live] at hq
  rcases hq with ⟨hroom, -⟩ | ⟨rfl, hapart⟩
  · exact absurd hroom (by decide)
  · exact hapart ⟨by decide, _, rfl, rfl, rfl⟩

end Swarm

/-!
## The dial queues over whole runs

Whatever state the queues are in and whatever calls are made on them, bringing them to their normal form succeeds, and loses an
address for one of four reasons only.
-/

namespace PeerQueues

/-- The state after calls in any order. -/
def after (s : PeerQueues) (calls : List PeerQueueCall) : PeerQueues := calls.foldl PeerQueueCall.apply s

/-- After any calls from any state, `normalize_peer_queues`, called to refresh the queues or by `promote_holepunch_candidate`, leaves
them in normal form: no address twice, none that has a peer or a dial, no queue over its cap, and the known addresses those with
a peer, a dial or an entry. An address that was queued is still queued unless it has a peer or a dial, cannot be dialled, or the
cap of all queues together is reached. -/
theorem peer_queues_normal (s : PeerQueues) (calls : List PeerQueueCall) :
    ((s.after calls).refreshPeerQueueState.Normal ∧ (s.after calls).DroppedOnly (s.after calls).refreshPeerQueueState) ∧
      ∀ addr, ((s.after calls).promoteHolepunchCandidate addr).1.Normal ∧
        (s.after calls).DroppedOnly ((s.after calls).promoteHolepunchCandidate addr).1 :=
  ⟨⟨normal_normalize _, droppedOnly_normalize _⟩, promote_spec _⟩

/-- Queues of a torrent without peers and dials. -/
def idleQueues : PeerQueues where
  priorityBacklog := []
  peerBacklog := []
  dialRetries := []
  usefulRedials := []
  knownAddrs := ∅
  peers := OrdMap.empty
  pendingDials := OrdMap.empty
  nextPid := 1

/-- Port 1 of a link-local address. -/
def linkLocalAddr : SocketAddr := .v4 (UInt32.ofNat (fromBeBytes 169 254 0 1)) 1

/-- A retry takes any address, and the next `normalize_peer_queues` drops one that cannot be dialled: it was queued once, has no
peer and no dial, and the queues are empty without it. -/
theorem peer_queues_drop_undialable :
    ¬ ∀ (s : PeerQueues) (calls : List PeerQueueCall), ∀ addr ∈ (s.after calls).queuedAddrs,
      addr ∈ (s.after calls).refreshPeerQueueState.queuedAddrs ∨ addr ∈ (s.after calls).activeAddrs ∨
        (s.after calls).refreshPeerQueueState.queued = maxPeerBacklog := by
  intro h
  have hdrop := h idleQueues [.retry linkLocalAddr false 1 0] linkLocalAddr (by decide +kernel)
  revert hdrop
  decide +kernel

end PeerQueues

/-!
## The block list

Looking an address up in the merged ranges and sets of the block list is a scan of its rules and its recent bans.
-/

namespace Blocklist

/-- The IPv6 address that an IPv4 address is mapped to. -/
def mapped (addr : UInt32) : ℕ := 0xffff * 2 ^ 32 + addr.toNat

/-- A mapped address is read as the one that it stands for. -/
theorem ipv4Form_mapped (addr : UInt32) : ipv4Form (.v6 (mapped addr)) = some addr.toNat := by
  have hlt := addr.toNat_lt
  have hhigh : mapped addr / 2 ^ 32 = 0xffff := by
    unfold mapped
    omega
  have hlow : mapped addr % 2 ^ 32 = addr.toNat := by
    unfold mapped
    omega
  show (if mapped addr / 2 ^ 32 = 0xffff then some (mapped addr % 2 ^ 32) else none) = _
  rw [if_pos hhigh, hlow]

theorem toCanonical_mapped (addr : UInt32) : (IpAddr.v6 (mapped addr)).toCanonical = .v4 addr := by
  have hlt := addr.toNat_lt
  have hhigh : mapped addr / 2 ^ 32 = 0xffff := by
    unfold mapped
    omega
  have hlow : mapped addr % 2 ^ 32 = addr.toNat := by
    unfold mapped
    omega
  show (if mapped addr / 2 ^ 32 = 0xffff then IpAddr.v4 (UInt32.ofNat (mapped addr % 2 ^ 32)) else _) = _
  rw [if_pos hhigh, hlow, UInt32.ofNat_toNat]

/-- After any calls an address is blocked when a rule of the last replacement covers it or it is among the recent bans. An IPv4 address gets the answer
of its mapped form, but for ranges of IPv6 that cover the latter. -/
theorem contains_exact (calls : List Call) :
    (∀ ip, (BlockList.run calls).contains ip = true ↔
      (∃ entry ∈ currentRules calls, ∃ rule, parseEntry entry = some rule ∧ rule.Covers ip) ∨ ip.toCanonical ∈ recentBans calls) ∧
    ∀ addr, (BlockList.run calls).contains (.v6 (mapped addr)) = true ↔ (BlockList.run calls).contains (.v4 addr) = true ∨
      ∃ entry ∈ currentRules calls, ∃ network m, parseEntry entry = some (.cidr (.v6 network m)) ∧ mapped addr &&& m = network := by
  have hcontains := fun ip => (BlockList.holds_run calls).contains_iff ip
  refine ⟨hcontains, fun addr => ?_⟩
  have hlt : mapped addr < 2 ^ 128 := by
    have := addr.toNat_lt
    unfold mapped
    omega
  rw [hcontains, hcontains, toCanonical_mapped, covers_iff, covers_iff, toCanonical_mapped, ipv4Form_mapped]
  have hrange : (∃ x, IpAddr.v6 (mapped addr) = .v6 x ∧ rangeContains (PreparedRules.parse (currentRules calls)).v6Ranges x = true) ↔
      ∃ entry ∈ currentRules calls, ∃ network m, parseEntry entry = some (.cidr (.v6 network m)) ∧ mapped addr &&& m = network := by
    simp only [PreparedRules.v6Ranges_contains, IpAddr.v6.injEq, exists_eq_left', hlt, true_and]
  have hnone : ¬ ∃ x, IpAddr.v4 addr = .v6 x ∧ rangeContains (PreparedRules.parse (currentRules calls)).v6Ranges x = true := by
    rintro ⟨x, hx, -⟩
    cases hx
  have hform : ipv4Form (.v4 addr) = some addr.toNat := rfl
  have hself : (IpAddr.v4 addr).toCanonical = .v4 addr := rfl
  rw [hrange, hform, hself, or_iff_left hnone, ← or_assoc]
  exact or_right_comm

/-- An address that is banned once more is still the oldest. -/
theorem not_contains_evicted {ip new : IpAddr} {rest : List IpAddr} (hcanonical : ∀ other ∈ new :: ip :: rest, other.toCanonical = other)
    (hnodup : (new :: ip :: rest).Nodup) (hmany : (ip :: rest).length = maxBanned) :
    (BlockList.run ((ip :: rest).map .ban ++ [.ban ip] ++ [.ban new])).contains ip = false := by
  rw [List.forall_mem_cons] at hcanonical
  rw [List.nodup_cons] at hnodup
  have hself : ip.toCanonical = ip := hcanonical.2 ip List.mem_cons_self
  have hrules : currentRules ((ip :: rest).map .ban ++ [.ban ip] ++ [.ban new]) = [] := by
    rw [BlockList.currentRules_concat, BlockList.currentRules_concat]
    have hbans : ∀ ips : List IpAddr, currentRules (ips.map .ban) = [] := by
      intro ips
      induction ips using List.reverseRecOn with
      | nil => rfl
      | append_singleton ips ip ih => rw [List.map_append, List.map_singleton, BlockList.currentRules_concat, ih]
    exact hbans _
  have hrecent : recentBans ((ip :: rest).map .ban ++ [.ban ip] ++ [.ban new]) = rest ++ [new] := by
    have hone : (ip :: rest ++ [new]).length - maxBanned = 1 := by
      rw [List.length_append, hmany, List.length_singleton, Nat.add_sub_cancel_left]
    rw [BlockList.recentBans_concat, BlockList.recentBans_concat, recentBans_distinct hcanonical.2 hnodup.2 hmany.le, hself,
      if_pos List.mem_cons_self, hcanonical.1, if_neg hnodup.1, hone, List.cons_append, List.drop_one, List.tail_cons]
  refine Bool.eq_false_iff.mpr fun hin => ?_
  rw [(BlockList.holds_run _).contains_iff, hrules, hrecent, hself] at hin
  rcases hin with ⟨entry, hentry, -⟩ | hin
  · cases hentry
  · rcases List.mem_append.mp hin with hold | hlast
    · exact (List.nodup_cons.mp hnodup.2).1 hold
    · exact hnodup.1 (List.mem_singleton.mp hlast ▸ List.mem_cons_self)

/-- The first addresses behind 0.0.0.0. -/
def laterAddresses (n : ℕ) : List IpAddr := (List.range n).map fun k => .v4 (UInt32.ofNat (k + 1))

/-- The later addresses are those counted from one. -/
theorem mem_laterAddresses {n : ℕ} {ip : IpAddr} (h : ip ∈ laterAddresses n) : ∃ k, 0 < k ∧ k ≤ n ∧ ip = .v4 (UInt32.ofNat k) := by
  obtain ⟨k, hk, rfl⟩ := List.mem_map.mp h
  exact ⟨k + 1, Nat.succ_pos k, List.mem_range.mp hk, rfl⟩

theorem v4_ofNat_injective {a b : ℕ} (ha : a < 2 ^ 32) (hb : b < 2 ^ 32) (h : IpAddr.v4 (UInt32.ofNat a) = .v4 (UInt32.ofNat b)) : a = b := by
  have hnat := congrArg UInt32.toNat (IpAddr.v4.inj h)
  rwa [UInt32.toNat_ofNat_of_lt' ha, UInt32.toNat_ofNat_of_lt' hb] at hnat

/-- They are distinct as long as they can be counted. -/
theorem nodup_laterAddresses {n : ℕ} (hn : n < 2 ^ 32) : (laterAddresses n).Nodup := by
  refine List.Nodup.map_on (fun a ha b hb hab => ?_) List.nodup_range
  have ha' := List.mem_range.mp ha
  have hb' := List.mem_range.mp hb
  have hsame := v4_ofNat_injective (by omega) (by omega) hab
  omega

/-- A range of IPv6 blocks a mapped address and not the IPv4 address. An address that was banned again goes before all others. -/
theorem contains_mapped_only :
    ((BlockList.run [.replace ["::/0".toList]]).contains (.v4 0x01020304) = false ∧
      (BlockList.run [.replace ["::/0".toList]]).contains (.v6 (mapped 0x01020304)) = true) ∧
    (BlockList.run ((.v4 0 :: laterAddresses 4095).map .ban ++ [.ban (.v4 0)] ++ [.ban (.v4 4096)])).contains (.v4 0) = false := by
  refine ⟨by decide +kernel, not_contains_evicted ?_ ?_ ?_⟩
  · rw [List.forall_mem_cons, List.forall_mem_cons]
    refine ⟨rfl, rfl, fun ip hip => ?_⟩
    obtain ⟨k, -, -, rfl⟩ := mem_laterAddresses hip
    rfl
  · rw [List.nodup_cons, List.nodup_cons]
    refine ⟨?_, ?_, nodup_laterAddresses (by decide)⟩
    · intro hin
      rcases List.mem_cons.mp hin with heq | hlater
      · exact absurd heq (by decide)
      · obtain ⟨k, -, hk, heq⟩ := mem_laterAddresses hlater
        have hsame := v4_ofNat_injective (a := 4096) (by decide) (by omega) heq
        omega
    · intro hin
      obtain ⟨k, hpos, hk, heq⟩ := mem_laterAddresses hin
      have hsame := v4_ofNat_injective (a := 0) (by decide) (by omega) heq
      omega
  · rw [List.length_cons, laterAddresses, List.length_map, List.length_range]
    rfl

end Blocklist

/-!
## The connection budget

The counter is what the guards and the leases hold. While the limit stays, torrents take no more than their share of it, and a metadata
fetch finds room as long as fewer of them run than the reserve holds.
-/

namespace ConnBudget

/-- A torrent that may use the whole limit gets all but the reserve. -/
theorem torrentCap_self {limit : ℕ} (h : limit < 2 ^ 64) : torrentCap limit limit = limit - metadataReserve limit := by
  have hle : metadataReserve limit ≤ limit := (Nat.min_le_right ..).trans (Nat.div_le_self ..)
  unfold torrentCap
  omega

/-- The counter is exact. With one limit all along, what is over the share of the torrents or over the limit was added without asking. -/
structure Ok (b : ConnBudget) : Prop where
  used : b.used = b.guards + b.leased
  limits : ∀ l ∈ b.limits, l < 2 ^ 64
  share : ∀ limit, (∀ l ∈ b.limits, l = limit) → b.leased ≤ torrentCap limit limit + b.grown ∧ b.used ≤ limit + b.grown

/-- One lease counts differently. -/
theorem leased_insert {b : ConnBudget} {id held : ℕ} (h : b.leases.get? id = some held) (current : ℕ) :
    (b.leases.insert id current).sumOf (fun _ held => held) + held = b.leased + current := by
  rw [OrdMap.sumOf_insert]
  unfold leased
  rw [OrdMap.sumOf_erase _ _ h]
  omega

/-- Every step keeps the counter exact, and the limits. -/
theorem Ok.step {b b' : ConnBudget} (h : b.Ok) {a : Action} (hstep : b.step a = some b') : b'.Ok := by
  have hused := h.used
  cases a with
  | setLimit limit =>
    simp only [ConnBudget.step, Option.ite_none_right_eq_some, Option.some.injEq] at hstep
    obtain ⟨hlimit, rfl⟩ := hstep
    exact ⟨hused, List.forall_mem_cons.mpr ⟨by omega, h.limits⟩, fun l hl => h.share l (List.forall_mem_cons.mp hl).2⟩
  | tryAcquire limit =>
    simp only [ConnBudget.step, Option.ite_none_right_eq_some, Option.some.injEq] at hstep
    obtain ⟨⟨hmem, hroom⟩, rfl⟩ := hstep
    refine ⟨by show b.used + 1 = b.guards + 1 + b.leased; omega, h.limits, fun l hl => ⟨(h.share l hl).1, ?_⟩⟩
    rw [← hl _ hmem]
    exact Nat.le_add_right_of_le hroom
  | dropGuard =>
    simp only [ConnBudget.step, Option.ite_none_right_eq_some, Option.some.injEq] at hstep
    obtain ⟨hpos, rfl⟩ := hstep
    exact ⟨by show b.used - 1 = b.guards - 1 + b.leased; omega, h.limits,
      fun l hl => ⟨(h.share l hl).1, (Nat.sub_le ..).trans (h.share l hl).2⟩⟩
  | lease id =>
    simp only [ConnBudget.step, Option.ite_none_left_eq_some, Option.some.injEq, OrdMap.contains, Option.isSome_iff_ne_none, not_not] at hstep
    obtain ⟨hfresh, rfl⟩ := hstep
    have hsame : (b.leases.insert id 0).sumOf (fun _ held => held) = b.leased := by
      rw [OrdMap.sumOf_insert, OrdMap.erase_of_get?_none _ hfresh, Nat.zero_add]
      rfl
    exact ⟨hused.trans (congrArg (b.guards + ·) hsame.symm), h.limits, fun l hl => ⟨hsame.trans_le (h.share l hl).1, (h.share l hl).2⟩⟩
  | tryReserve id limit limit' =>
    simp only [ConnBudget.step, Option.bind_eq_some_iff, Option.ite_none_right_eq_some, Option.some.injEq] at hstep
    obtain ⟨held, hheld, ⟨hmem, hmem', hroom⟩, rfl⟩ := hstep
    have hsum := leased_insert hheld (held + 1)
    refine ⟨?_, h.limits, fun l hl => ?_⟩
    · show b.used + 1 = b.guards + (b.leases.insert id (held + 1)).sumOf _
      omega
    · rw [hl _ hmem, hl _ hmem'] at hroom
      have hcap := torrentCap_self (h.limits _ hmem)
      rw [hl _ hmem] at hcap
      refine ⟨?_, ?_⟩
      · show (b.leases.insert id (held + 1)).sumOf _ ≤ torrentCap l l + b.grown
        omega
      · show b.used + 1 ≤ l + b.grown
        omega
  | sync id current =>
    simp only [ConnBudget.step, Option.map_eq_some_iff] at hstep
    obtain ⟨held, hheld, rfl⟩ := hstep
    have hsum := leased_insert hheld current
    have hle : held ≤ b.leased := by
      unfold leased
      rw [OrdMap.sumOf_erase _ _ hheld]
      exact Nat.le_add_right ..
    refine ⟨?_, h.limits, fun l hl => ⟨?_, ?_⟩⟩
    · show b.used + (current - held) - (held - current) = b.guards + (b.leases.insert id current).sumOf _
      omega
    · have hshare := (h.share l hl).1
      show (b.leases.insert id current).sumOf _ ≤ torrentCap l l + (b.grown + (current - held))
      omega
    · have hshare := (h.share l hl).2
      show b.used + (current - held) - (held - current) ≤ l + (b.grown + (current - held))
      omega
  | dropLease id =>
    simp only [ConnBudget.step, Option.map_eq_some_iff] at hstep
    obtain ⟨held, hheld, rfl⟩ := hstep
    have hsum : b.leased = held + (b.leases.erase id).sumOf fun _ held => held := OrdMap.sumOf_erase _ _ hheld
    refine ⟨?_, h.limits, fun l hl => ⟨?_, (Nat.sub_le ..).trans (h.share l hl).2⟩⟩
    · show b.used - held = b.guards + (b.leases.erase id).sumOf _
      omega
    · have hshare := (h.share l hl).1
      show (b.leases.erase id).sumOf _ ≤ torrentCap l l + b.grown
      omega

/-- In every state reached the counter is what the guards and the leases hold. With one limit all along, the leases hold no more than their
share and what they added without asking, the counter is over the limit by no more than that, and a metadata fetch that asks while
fewer guards are held than the reserve has left gets one. -/
theorem budget_shared (b : ConnBudget) (h : Reachable b) :
    b.used = b.guards + b.leased ∧ ∀ limit ∈ b.limits, (∀ l ∈ b.limits, l = limit) →
      b.leased ≤ limit - metadataReserve limit + b.grown ∧ b.used ≤ limit + b.grown ∧
        (b.guards + b.grown < metadataReserve limit → (b.step (.tryAcquire limit)).isSome = true) := by
  have hok : b.Ok := by
    refine Reach.invariant (fun b hb => ?_) (fun b b' hb ⟨a, ha⟩ => hb.step ha) h
    obtain ⟨limit, hlimit, rfl⟩ := hb
    exact ⟨rfl, List.forall_mem_singleton.mpr (by omega), fun _ _ => ⟨Nat.zero_le _, Nat.zero_le _⟩⟩
  refine ⟨hok.used, fun limit hmem hone => ?_⟩
  have hcap := torrentCap_self (hok.limits _ hmem)
  obtain ⟨hshare, hused⟩ := hok.share limit hone
  refine ⟨hcap ▸ hshare, hused, fun hfew => ?_⟩
  have hle : metadataReserve limit ≤ limit := (Nat.min_le_right ..).trans (Nat.div_le_self ..)
  have hroom : limit ∈ b.limits ∧ b.used < limit := ⟨hmem, by have := hok.used; omega⟩
  simp only [ConnBudget.step, if_pos hroom, Option.isSome_some]

/-- Torrents fill their share of forty, and two metadata fetches start. -/
def sharedForty : List Action := .lease 1 :: List.replicate 32 (.tryReserve 1 40 40) ++ [.tryAcquire 40, .tryAcquire 40]

/-- With all that is not reserved in use, nothing more is handed out. -/
theorem budget_shared_forty : ∃ b, runActions step (new 40) sharedForty = some b ∧ b.used = 34 ∧ b.leased = 40 - metadataReserve 40 ∧
    (b.step (.tryReserve 1 40 40)).isNone = true ∧ b.used = b.guards + b.leased ∧ ∀ limit ∈ b.limits, (∀ l ∈ b.limits, l = limit) →
      b.leased ≤ limit - metadataReserve limit + b.grown ∧ b.used ≤ limit + b.grown ∧
        (b.guards + b.grown < metadataReserve limit → (b.step (.tryAcquire limit)).isSome = true) := by
  obtain ⟨b, hb, hused, hleased, hfull⟩ : ∃ b, runActions step (new 40) sharedForty = some b ∧ b.used = 34 ∧
      b.leased = 40 - metadataReserve 40 ∧ (b.step (.tryReserve 1 40 40)).isNone = true := ⟨_, rfl, rfl, rfl, rfl⟩
  exact ⟨b, hb, hused, hleased, hfull, budget_shared b (.runActions hb (.init ⟨40, by decide, rfl⟩))⟩

end ConnBudget

/-!
## Priorities

The two ends of a connection see its addresses the other way round, and must agree on its priority.
-/

/-- The order of the two addresses does not matter. -/
theorem maskedPairPriority_comm {a b : List UInt8} (h : a.length = b.length) (floor : ℕ) :
    maskedPairPriority a b floor = maskedPairPriority b a floor := by
  have hshared : ∀ p : UInt8 × UInt8 → Bool, (∀ e, p e.swap = p e) → ((a.zip b).takeWhile p).length = ((b.zip a).takeWhile p).length := by
    intro p hp
    rw [← List.zip_swap a b, List.takeWhile_map, List.length_map, show p ∘ Prod.swap = p from funext hp]
  unfold maskedPairPriority
  rw [hshared _ fun e => decide_eq_decide.mpr eq_comm]
  simp only [h]
  generalize b.take _ ++ _ = y
  generalize a.take _ ++ _ = x
  rcases lt_trichotomy x y with hlt | rfl | hlt
  · rw [if_pos hlt.le, if_neg (not_le.mpr hlt)]
  · rfl
  · rw [if_neg (not_le.mpr hlt), if_pos hlt.le]

theorem length_mappedOctets (ip : IpAddr) : (mappedOctets ip).length = 16 := by cases ip <;> rfl

/-- Both ends of a connection find the same priority. -/
theorem peerPriority_comm (ours theirs : SocketAddr) : peerPriority ours theirs = peerPriority theirs ours := by
  unfold peerPriority
  by_cases hsame : ours.canonicalIp = theirs.canonicalIp
  · rw [if_pos hsame, if_pos hsame.symm]
    by_cases hle : ours.port ≤ theirs.port
    · by_cases hge : theirs.port ≤ ours.port
      · rw [UInt16.le_antisymm hle hge]
      · rw [if_pos hle, if_neg hge]
    · rw [if_neg hle, if_pos ((UInt16.le_total ..).resolve_left hle)]
  · rw [if_neg hsame, if_neg (Ne.symm hsame)]
    have hmapped := fun a b : IpAddr => maskedPairPriority_comm ((length_mappedOctets a).trans (length_mappedOctets b).symm) v6KeptFloor
    generalize ours.canonicalIp = a
    generalize theirs.canonicalIp = b
    cases a with
    | v4 a =>
      cases b with
      | v4 b => exact maskedPairPriority_comm (show (toBeBytes32 a).length = (toBeBytes32 b).length from rfl) _
      | v6 b => exact hmapped _ _
    | v6 a =>
      cases b with
      | v4 b => exact hmapped _ _
      | v6 b => exact hmapped _ _

namespace PeerRanker

/-- A list refilled from as many ranked addresses as it has is made of these and of its other addresses, which stay in their places. -/
theorem refill_spec (ranker : PeerRanker) (addrs : List SocketAddr) {ranked : List (UInt32 × SocketAddr)}
    (hlength : ranked.length = (addrs.filterMap ranker.priority).length) (hranked : ∀ e ∈ ranked, ranker.priority e.2 = some e.1) :
    (ranker.refill addrs ranked).filterMap ranker.priority = ranked.map (·.1) ∧
      (ranker.refill addrs ranked).Perm (addrs.filter (fun addr => ranker.priority addr = none) ++ ranked.map (·.2)) ∧
      ∀ (i : ℕ) addr, addrs[i]? = some addr → ranker.priority addr = none → (ranker.refill addrs ranked)[i]? = some addr := by
  induction addrs generalizing ranked with
  | nil =>
    obtain rfl := List.length_eq_zero_iff.mp hlength
    exact ⟨rfl, .refl _, nofun⟩
  | cons addr addrs ih =>
    cases hp : ranker.priority addr with
    | none =>
      rw [List.filterMap_cons_none hp] at hlength
      obtain ⟨hpriority, hperm, hplace⟩ := ih hlength hranked
      have hrefill : ranker.refill (addr :: addrs) ranked = addr :: ranker.refill addrs ranked := by
        rw [refill]
        simp [hp]
      rw [hrefill, List.filterMap_cons_none hp, List.filter_cons_of_pos (by simpa using hp)]
      refine ⟨hpriority, hperm.cons addr, fun i a hi ha => ?_⟩
      cases i with
      | zero => exact hi
      | succ i => exact hplace i a hi ha
    | some priority =>
      rw [List.filterMap_cons_some hp, List.length_cons] at hlength
      obtain ⟨next, ranked, rfl⟩ := List.exists_cons_of_length_eq_add_one hlength
      obtain ⟨hnext, hrest⟩ := List.forall_mem_cons.mp hranked
      obtain ⟨hpriority, hperm, hplace⟩ := ih (Nat.succ.inj hlength) hrest
      have hrefill : ranker.refill (addr :: addrs) (next :: ranked) = next.2 :: ranker.refill addrs ranked := by
        simp [refill, hp]
      rw [hrefill, List.filterMap_cons_some hnext, List.filter_cons_of_neg (by simp [hp])]
      refine ⟨congrArg (next.1 :: ·) hpriority, (hperm.cons next.2).trans List.perm_middle.symm, fun i a hi ha => ?_⟩
      cases i with
      | zero =>
        rw [← Option.some.inj hi, hp] at ha
        nomatch ha
      | succ i => exact hplace i a hi ha

/-- A batch keeps its addresses, those without a priority keep their places, and the others are in the order of their priorities. -/
theorem orderBatch_sorts (ranker : PeerRanker) (addrs : List SocketAddr) :
    (ranker.orderBatch addrs).Perm addrs ∧
      (∀ (i : ℕ) addr, addrs[i]? = some addr → ranker.priority addr = none → (ranker.orderBatch addrs)[i]? = some addr) ∧
      ((ranker.orderBatch addrs).filterMap ranker.priority).Pairwise (· ≥ ·) := by
  unfold orderBatch
  split
  · rename_i hplain
    refine ⟨.refl _, fun i addr hi _ => hi, ?_⟩
    rcases hplain with hshort | hunknown
    · match addrs, hshort with
      | [], _ => exact .nil
      | [addr], _ => cases h : ranker.priority addr <;> simp [h]
    · have hnone : ∀ addr, ranker.priority addr = none := by
        intro addr
        unfold priority
        rw [hunknown]
        split <;> rfl
      rw [show ranker.priority = fun _ => none from funext hnone, List.filterMap_none]
      exact .nil
  · have hpriorities : (addrs.filterMap fun addr => (ranker.priority addr).map (·, addr)).map (·.1) = addrs.filterMap ranker.priority := by
      rw [List.map_filterMap]
      congr 1
      funext addr
      cases ranker.priority addr <;> rfl
    have haddrs : (addrs.filterMap fun addr => (ranker.priority addr).map (·, addr)).map (·.2) =
        addrs.filter fun addr => !decide (ranker.priority addr = none) := by
      rw [List.map_filterMap, ← List.filterMap_eq_filter]
      congr 1
      funext addr
      cases h : ranker.priority addr <;> simp [Option.guard, h]
    have hranked : ∀ e ∈ addrs.filterMap fun addr => (ranker.priority addr).map (·, addr), ranker.priority e.2 = some e.1 := by
      intro e he
      obtain ⟨addr, -, he⟩ := List.mem_filterMap.mp he
      obtain ⟨priority, hp, rfl⟩ := Option.map_eq_some_iff.mp he
      exact hp
    generalize (addrs.filterMap fun addr => (ranker.priority addr).map (·, addr)) = ranked at hpriorities haddrs hranked ⊢
    have hperm := ranked.mergeSort_perm fun a b => b.1 ≤ a.1
    obtain ⟨hsorted, hrefill, hplace⟩ := ranker.refill_spec addrs
      (by rw [hperm.length_eq, ← hpriorities, List.length_map]) fun e he => hranked e (hperm.mem_iff.mp he)
    refine ⟨?_, hplace, ?_⟩
    · refine hrefill.trans (((hperm.map (·.2)).append_left _).trans ?_)
      rw [haddrs]
      exact List.filter_append_perm ..
    · rw [hsorted]
      refine List.pairwise_map.mpr ((List.pairwise_mergeSort ?_ ?_ ranked).imp fun h => of_decide_eq_true h)
      · exact fun a b c hab hbc => decide_eq_true (UInt32.le_trans (of_decide_eq_true hbc) (of_decide_eq_true hab))
      · exact fun a b => by simpa using UInt32.le_total b.1 a.1

end PeerRanker

end Risuko
