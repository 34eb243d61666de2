import Risuko.Torrent.PeerQueues

/-!
# Duplicates: what each side makes of the second handshake

A side that would take either of the two connections alone is described by its settings (`AllowsDial`, `TakesInbound`).
With the first connection taken `resolve_duplicate` finds exactly that one (`resolveDuplicate_one`), and the four cases follow: the
side of the lower id or of the higher one, its own dial first or second.
-/

namespace Risuko

theorem Id20.lt_or_lt {a b : Id20} (h : a ≠ b) : a < b ∨ b < a := by
  have hne : a.bytes ≠ b.bytes := by
    intro heq
    apply h
    cases a
    cases b
    simpa using heq
  by_contra hnot
  rw [not_or] at hnot
  exact hne (List.le_antisymm (List.not_lt.mp hnot.2) (List.not_lt.mp hnot.1))

theorem Id20.lt_asymm {a b : Id20} (h : a < b) : ¬ b < a := by
  have hlt : a.bytes < b.bytes := h
  exact List.lt_asymm hlt

/-- No peer of the id is connected from the IP address. -/
def NoneFrom (peers : OrdMap Nat SwarmPeer) (id : Id20) (ip : IpAddr) : Prop :=
  ∀ pid p, peers.get? pid = some p → ¬ (p.peerId = some id ∧ p.addr.ip = ip)

theorem resolveDuplicate_keep {peers : OrdMap Nat SwarmPeer} {id : Id20} {ip : IpAddr} (h : NoneFrom peers id ip) (ourPeerId : Id20)
    (newOutbound : Bool) : resolveDuplicate peers ip (some id) ourPeerId newOutbound = .keep := by
  have hempty : (peers.filter (fun _ p => p.peerId = some id ∧ p.addr.ip = ip)).entries.isEmpty = true := by
    refine OrdMap.isEmpty_iff.mpr (fun pid => ?_)
    rw [OrdMap.get?_filter]
    cases hp : peers.get? pid with
    | none => rfl
    | some p => simpa using h pid p hp
  unfold resolveDuplicate
  split
  · rfl
  · rename_i id' hid
    obtain rfl := Option.some.inj (Option.filter_eq_some_iff.mp hid).1
    simp only [hempty, if_true]

/-- With one connection to the peer, that one is compared with the new one. -/
theorem resolveDuplicate_one {peers : OrdMap Nat SwarmPeer} {id : Id20} {ip : IpAddr} (h : NoneFrom peers id ip) {ourPeerId : Id20}
    (hne : id ≠ ourPeerId) (pid : Nat) {addr : SocketAddr} (haddr : addr.ip = ip) (outbound newOutbound : Bool) :
    resolveDuplicate (peers.insert pid (.connected addr outbound (some id))) ip (some id) ourPeerId newOutbound =
      if newOutbound = decide (ourPeerId < id) ∧ outbound ≠ newOutbound then .replaceOld [pid] else .rejectNew := by
  have hone : (peers.insert pid (.connected addr outbound (some id))).filter (fun _ p => p.peerId = some id ∧ p.addr.ip = ip) =
      OrdMap.empty.insert pid (.connected addr outbound (some id)) := by
    refine OrdMap.ext_get? (fun pid' => ?_)
    rw [OrdMap.get?_filter, OrdMap.get?_insert, OrdMap.get?_insert]
    by_cases hpid : pid' = pid
    · simp [hpid, SwarmPeer.connected, haddr]
    · simp only [hpid, if_false]
      cases hp : peers.get? pid' with
      | none => rfl
      | some p => simpa using h pid' p hp
  unfold resolveDuplicate
  rw [Option.filter_some_pos (by simpa using hne)]
  simp only [hone]
  by_cases hd : newOutbound = decide (ourPeerId < id) ∧ outbound ≠ newOutbound
  · rw [if_pos hd]
    simp [OrdMap.empty, OrdMap.insert, OrdMap.insertList, SwarmPeer.connected, hd.1]
    simpa [hd.1] using hd.2
  · rw [if_neg hd]
    simp [OrdMap.empty, OrdMap.insert, OrdMap.insertList, SwarmPeer.connected]
    simpa using hd

namespace Swarm

variable {env : SwarmEnv} {s : Swarm}
variable {pid : Nat} {registryAddr addr : SocketAddr} {id : Id20}

/-- A dial that nothing but another connection or the cap is in the way of. -/
structure AllowsDial (env : SwarmEnv) (s : Swarm) (pid : Nat) (registryAddr : SocketAddr) : Prop where
  running : s.paused = false
  allowed : (env.blocked (s.dialledAddr pid registryAddr).ip ||
    (s.privateTorrent && !s.trackerAuthorized.contains (s.dialledAddr pid registryAddr))) = false

/-- An inbound connection that nothing but another connection is in the way of. -/
structure TakesInbound (env : SwarmEnv) (s : Swarm) (addr : SocketAddr) (reserve bound : Bool) : Prop where
  allowed : env.blocked addr.ip = false
  running : s.paused = false
  free : s.inboundAddrTaken env addr = false
  dialable : isDialablePeerAddr addr = true
  room : s.hasRoom env = true
  reserved : reserve = true
  bound : bound = true

/-- The torrent once it has taken a dial. -/
def withDialled (s : Swarm) (pid : Nat) (registryAddr : SocketAddr) (id : Id20) : Swarm :=
  { s with
    pendingDials := s.pendingDials.erase pid
    peers := s.peers.insert pid (.connected (s.dialledAddr pid registryAddr) true (some id)) }

/-- The torrent once it has taken an inbound connection in place of others. -/
def withInbound (env : SwarmEnv) (s : Swarm) (addr : SocketAddr) (id : Id20) (old : List Nat) : Swarm :=
  { s with
    peers := (s.abortPeers old).peers.insert s.nextPid (.connected addr false (some id))
    inboundEvictions := s.liveEvictions ++ (s.inboundRoom env).2.toList
    knownAddrs := addr :: s.knownAddrs
    nextPid := s.nextPid + 1 }

theorem not_keeps_of_none (h : s.peers.get? pid = none) : ¬ s.Keeps pid := by
  rintro ⟨p, hp, _⟩
  rw [h] at hp
  cases hp

theorem size_insert_of_none {peers : OrdMap Nat SwarmPeer} (h : peers.get? pid = none) (p : SwarmPeer) :
    (peers.insert pid p).size = peers.size + 1 := by
  have hperm := (peers.insert_perm pid p).length_eq
  rw [peers.erase_of_get?_none h, List.length_cons] at hperm
  exact hperm

theorem peers_adoptDialled (s : Swarm) (pid : Nat) (addr : SocketAddr) (id : Id20) :
    (s.adoptDialled pid addr id).peers =
      if s.maxPeers ≤ s.peers.size then s.peers else s.peers.insert pid (.connected addr true (some id)) := by
  unfold adoptDialled
  simp only [ge_iff_le]
  split <;> rfl

theorem size_abortPeers (s : Swarm) (old : List Nat) : (s.abortPeers old).peers.size = s.peers.size := by
  simp [abortPeers, OrdMap.mapVal, OrdMap.size]

theorem abortPeers_nil (s : Swarm) : s.abortPeers [] = s := by
  unfold abortPeers
  have hsame : s.peers.mapVal (fun pid p => if pid ∈ ([] : List Nat) then { p with aborted := true } else p) = s.peers := by
    refine OrdMap.ext_get? (fun pid => ?_)
    rw [OrdMap.get?_mapVal]
    simp
  rw [hsame]

/-- What becomes of the peers when a dial completes its handshake: the connections it replaces are told to end before the cap is
looked at. -/
theorem peers_handshook (hnew : s.peers.get? pid = none)
    (ha : s.AllowsDial env pid registryAddr) (id : Id20) :
    (s.handshook env pid registryAddr id).peers =
      let action := resolveDuplicate s.peers (s.dialledAddr pid registryAddr).ip (some id) s.ourPeerId true
      if action = .rejectNew ∨ s.maxPeers ≤ s.peers.size then (s.abortPeers action.old).peers
      else (s.abortPeers action.old).peers.insert pid (.connected (s.dialledAddr pid registryAddr) true (some id)) := by
  have hcontains : s.peers.contains pid = false := by rw [OrdMap.contains, hnew]; rfl
  unfold handshook
  rw [if_neg (by rw [ha.running]; exact Bool.false_ne_true), if_neg (by rw [hcontains]; exact Bool.false_ne_true)]
  simp only
  rw [if_neg (by rw [ha.allowed]; exact Bool.false_ne_true)]
  cases hdup : resolveDuplicate s.peers (s.dialledAddr pid registryAddr).ip (some id) s.ourPeerId true with
  | keep => simp only [reduceCtorEq, false_or, DuplicateAction.old, abortPeers_nil, peers_adoptDialled]
  | rejectNew =>
    simp only [true_or, if_true, DuplicateAction.old, abortPeers_nil]
    split <;> rfl
  | replaceOld old =>
    simp only [reduceCtorEq, false_or, DuplicateAction.old, peers_adoptDialled, size_abortPeers]
    rfl

/-- An inbound connection that is taken alone replaces what the duplicate rule says. -/
theorem addInboundPeer_of_takes {reserve bound : Bool} (ht : s.TakesInbound env addr reserve bound) (id : Id20)
    (hdup : resolveDuplicate s.peers addr.ip (some id) s.ourPeerId false ≠ .rejectNew) :
    s.addInboundPeer env addr id reserve bound =
      s.withInbound env addr id (resolveDuplicate s.peers addr.ip (some id) s.ourPeerId false).old := by
  unfold addInboundPeer
  simp only
  rw [if_neg (by simp [ht.allowed, hdup]), if_neg (by simp [ht.running, ht.free, ht.dialable]),
    if_neg (by simp [ht.room, ht.reserved]), if_pos ht.bound]
  rfl

/-- An inbound connection that is refused leaves the peers as they were. -/
theorem peers_addInboundPeer_refused
    (h : resolveDuplicate s.peers addr.ip (some id) s.ourPeerId false = .rejectNew ∨ s.inboundAddrTaken env addr = true ∨
      s.hasRoom env = false) (reserve bound : Bool) : (s.addInboundPeer env addr id reserve bound).peers = s.peers := by
  unfold addInboundPeer
  simp only
  split
  · rfl
  rename_i hallowed
  split
  · rfl
  rename_i hfree
  split
  · rfl
  rename_i hroom
  simp only [Bool.or_eq_true, decide_eq_true_eq, not_or, Bool.not_eq_true', Bool.not_eq_true, Bool.not_eq_false] at hallowed hfree hroom
  rcases h with hdup | htaken | hfull
  · exact absurd hdup hallowed.2
  · rw [hfree.1.2] at htaken
    cases htaken
  · rw [hroom.1] at hfull
    cases hfull

theorem allowsDial_of_keeps (hnew : s.peers.get? pid = none)
    (hnone : NoneFrom s.peers id (s.dialledAddr pid registryAddr).ip) (h : (s.handshook env pid registryAddr id).Keeps pid) :
    s.AllowsDial env pid registryAddr ∧ s.peers.size < s.maxPeers := by
  have hcontains : s.peers.contains pid = false := by rw [OrdMap.contains, hnew]; rfl
  have hdup := resolveDuplicate_keep hnone s.ourPeerId true
  have hnot : ∀ s' : Swarm, s'.peers = s.peers → ¬ s'.Keeps pid := fun s' hs' => not_keeps_of_none (by rw [hs']; exact hnew)
  unfold handshook at h
  simp only [hcontains, hdup, Bool.false_eq_true, if_false] at h
  split at h
  · exact absurd h (hnot _ rfl)
  rename_i hpaused
  split at h
  · exact absurd h (hnot _ rfl)
  rename_i hallowed
  unfold adoptDialled at h
  split at h
  · exact absurd h (hnot _ rfl)
  rename_i hroom
  exact ⟨⟨by simpa using hpaused, by simpa using hallowed⟩, by simpa using hroom⟩

theorem handshook_alone (hnew : s.peers.get? pid = none)
    (hnone : NoneFrom s.peers id (s.dialledAddr pid registryAddr).ip) (ha : s.AllowsDial env pid registryAddr)
    (hroom : s.peers.size < s.maxPeers) : s.handshook env pid registryAddr id = s.withDialled pid registryAddr id := by
  have hcontains : s.peers.contains pid = false := by rw [OrdMap.contains, hnew]; rfl
  unfold handshook
  rw [if_neg (by rw [ha.running]; exact Bool.false_ne_true), if_neg (by rw [hcontains]; exact Bool.false_ne_true)]
  simp only
  rw [if_neg (by rw [ha.allowed]; exact Bool.false_ne_true), resolveDuplicate_keep hnone]
  simp only
  unfold adoptDialled
  rw [if_neg (by simpa using hroom)]
  rfl

theorem takesInbound_of_keeps {reserve bound : Bool} (hnew : s.peers.get? s.nextPid = none)
    (hnone : NoneFrom s.peers id addr.ip) (h : (s.addInboundPeer env addr id reserve bound).Keeps s.nextPid) :
    s.TakesInbound env addr reserve bound := by
  have hdup := resolveDuplicate_keep hnone s.ourPeerId false
  have hnot : ∀ s' : Swarm, s'.peers = s.peers → ¬ s'.Keeps s.nextPid :=
    fun s' hs' => not_keeps_of_none (by rw [hs']; exact hnew)
  unfold addInboundPeer at h
  simp only [hdup, reduceCtorEq, decide_false, Bool.or_false, DuplicateAction.old, abortPeers_nil] at h
  split at h
  · exact absurd h (hnot _ rfl)
  rename_i hallowed
  split at h
  · exact absurd h (hnot _ rfl)
  rename_i hfree
  split at h
  · exact absurd h (hnot _ rfl)
  rename_i hroom
  split at h
  · rename_i hbound
    simp only [Bool.or_eq_true, Bool.not_eq_true', not_or, Bool.not_eq_true, Bool.not_eq_false] at hallowed hfree hroom
    exact ⟨hallowed, hfree.1.1, hfree.1.2, hfree.2, hroom.1, hroom.2, hbound⟩
  · exact absurd h (hnot _ rfl)

/-- The dial makes the address of the inbound connection taken exactly if it went to that address, and the address is known. -/
theorem inboundAddrTaken_withDialled (hnew : s.peers.get? pid = none)
    (hfree : s.inboundAddrTaken env addr = false) (registryAddr : SocketAddr) (id : Id20) :
    (s.withDialled pid registryAddr id).inboundAddrTaken env addr = true ↔
      addr ∈ s.knownAddrs ∧ s.dialledAddr pid registryAddr = addr := by
  have hpeers : (s.withDialled pid registryAddr id).peers.entries.any (fun e => e.2.at addr) =
      (decide (s.dialledAddr pid registryAddr = addr) || s.peers.entries.any (fun e => e.2.at addr)) := by
    have hperm := s.peers.insert_perm pid (.connected (s.dialledAddr pid registryAddr) true (some id))
    rw [s.peers.erase_of_get?_none hnew] at hperm
    refine (hperm.any_eq).trans ?_
    rw [List.any_cons]
    simp [SwarmPeer.at, SwarmPeer.connected]
  have hpending : s.dialledAddr pid registryAddr ≠ addr →
      (s.pendingDials.erase pid).entries.any (fun e => e.2 = addr) = s.pendingDials.entries.any (fun e => e.2 = addr) := by
    intro hne
    rw [Bool.eq_iff_iff, List.any_eq_true, List.any_eq_true]
    refine exists_congr (fun e => and_congr_left (fun he => ?_))
    rw [OrdMap.erase, OrdMap.mem_filter_entries]
    refine and_iff_left_of_imp (fun hmem => decide_eq_true (fun hpid => hne ?_))
    have hget : s.pendingDials.get? pid = some e.2 := by
      rw [OrdMap.get?_eq_some_iff, ← hpid]
      exact hmem
    rw [dialledAddr, hget, Option.getD_some]
    exact of_decide_eq_true he
  unfold inboundAddrTaken at hfree ⊢
  rw [hpeers]
  show (if !s.knownAddrs.contains addr then false else _) = true ↔ _
  by_cases hknown : addr ∈ s.knownAddrs
  · have hc : (!s.knownAddrs.contains addr) = false := by simpa using hknown
    simp only [hc, Bool.false_eq_true, if_false] at hfree ⊢
    split at hfree
    · cases hfree
    rename_i hany
    by_cases haddr : s.dialledAddr pid registryAddr = addr
    · simp [haddr, hknown]
    · have hp := hpending haddr
      simp only [haddr, decide_false, Bool.false_or, hany, and_false, iff_false, Bool.not_eq_true]
      show (!(env.isTarget addr || (s.pendingDials.erase pid).entries.any (fun e => e.2 = addr))) = false
      rw [hp]
      exact hfree
  · simp [hknown]

theorem liveEvictions_withDialled (hev : pid ∉ s.inboundEvictions) (registryAddr : SocketAddr) (id : Id20) :
    (s.withDialled pid registryAddr id).liveEvictions = s.liveEvictions := by
  refine List.filter_congr (fun old hold => ?_)
  have hne : old ≠ pid := fun heq => hev (heq ▸ hold)
  show ((s.peers.insert pid _).get? old).isSome = (s.peers.get? old).isSome
  rw [OrdMap.get?_insert_of_ne _ _ hne]

/-- The room that is left beside the dial: the cap is not reached, a peer is about to leave, or one gives way. -/
theorem hasRoom_withDialled (env : SwarmEnv) (hnew : s.peers.get? pid = none) (hev : pid ∉ s.inboundEvictions)
    (hrunning : s.paused = false) (registryAddr : SocketAddr) (id : Id20) :
    (s.withDialled pid registryAddr id).hasRoom env = true ↔
      s.peers.size + 1 - s.liveEvictions.length < s.maxPeers ∨
        ((s.withDialled pid registryAddr id).inboundEvictionVictim env s.liveEvictions).isSome = true := by
  have hsize : (s.withDialled pid registryAddr id).peers.size = s.peers.size + 1 := size_insert_of_none hnew _
  have hpaused : (s.withDialled pid registryAddr id).paused = false := hrunning
  have hmax : (s.withDialled pid registryAddr id).maxPeers = s.maxPeers := rfl
  unfold hasRoom inboundRoom
  simp only [hsize, hmax, liveEvictions_withDialled hev, hpaused, ge_iff_le, Bool.not_false, Bool.and_true]
  by_cases hcrowded : s.maxPeers ≤ s.peers.size + 1 - s.liveEvictions.length
  · simp [hcrowded, Nat.not_lt.mpr hcrowded]
  · simp [hcrowded, Nat.lt_of_not_le hcrowded]

theorem keeps_insert (s : Swarm) (peers : OrdMap Nat SwarmPeer) (pid : Nat) (addr : SocketAddr) (outbound : Bool) (id : Id20)
    (hs : s.peers = peers.insert pid (.connected addr outbound (some id))) : s.Keeps pid := by
  refine ⟨.connected addr outbound (some id), ?_, rfl⟩
  rw [hs, OrdMap.get?_insert, if_pos rfl]

/-- What was told to end is not kept. -/
theorem not_keeps_of_aborted {s' : Swarm} {old : List Nat} (h : pid ∈ old)
    (hs : s'.peers.get? pid = (s.abortPeers old).peers.get? pid) : ¬ s'.Keeps pid := by
  rintro ⟨p, hp, halive⟩
  rw [hs, abortPeers, OrdMap.get?_mapVal] at hp
  obtain ⟨q, _, rfl⟩ := Option.map_eq_some_iff.mp hp
  rw [if_pos h] at halive
  cases halive

theorem get?_abortPeers_of_none (h : s.peers.get? pid = none) (old : List Nat) :
    (s.abortPeers old).peers.get? pid = none := by
  rw [abortPeers, OrdMap.get?_mapVal, h]
  rfl

end Swarm

end Risuko
