import Risuko.Dht.Inbound
import Risuko.Lib.Lists

/-!
# Making room in the peer store

One lemma for each place where `add_peer` evicts (`makeRoom_cases`, `argmin_places`), and from them that it evicts one peer at most and keeps
what holds of the lists (`Ok.addPeer`).
-/

namespace Risuko

/-- Nobody in the group was seen before the one that is evicted. -/
structure Eviction.Oldest (e : Eviction) : Prop where
  mem : e.peer ∈ e.members
  oldest : ∀ q ∈ e.members, e.peer.seen ≤ q.seen

namespace PeerStore

variable {s s' : PeerStore} {entries : List StoredPeer} {p : StoredPeer → Bool} {last now : Nat}
variable {peer : StoredPeer} {i : Nat} {peers : StoredPeers} {hash : Id20} {addr : SocketAddr}

/-- What holds of the list of a hash. -/
structure ListOk (entries : List StoredPeer) : Prop where
  nonempty : entries ≠ []
  nodup : (entries.map (·.addr)).Nodup
  perIp : ∀ ip, (entries.filter (·.addr.ip = ip)).length ≤ maxPeersPerIp
  short : entries.length ≤ maxPeersPerHash

/-- What holds of the store list by list, and that no peer was seen after the last reading of the clock. -/
structure Sound (s : PeerStore) (last : Nat) : Prop where
  lists : ∀ hash entries, s.peers.get? hash = some entries → ListOk entries
  hidden : ∀ hash ∈ s.privateHashes, s.peers.get? hash = none
  seen : ∀ hash entries, s.peers.get? hash = some entries → ∀ peer ∈ entries, peer.seen ≤ last

structure Ok (s : PeerStore) (last : Nat) : Prop extends Sound s last where
  total : count s.peers ≤ maxStoredPeers

theorem ListOk.sublist (h : ListOk entries) {fewer : List StoredPeer} (hsub : fewer.Sublist entries) (hne : fewer ≠ []) : ListOk fewer where
  nonempty := hne
  nodup := h.nodup.sublist (hsub.map _)
  perIp ip := (hsub.filter _).length_le.trans (h.perIp ip)
  short := hsub.length_le.trans h.short

/-- A change of the times is no matter. -/
theorem ListOk.of_addrs (h : ListOk entries) {entries' : List StoredPeer} (haddrs : entries'.map (·.addr) = entries.map (·.addr)) :
    ListOk entries' where
  nonempty hnil := h.nonempty (by simpa [hnil] using haddrs.symm)
  nodup := haddrs ▸ h.nodup
  perIp ip := by
    have hcount (L : List StoredPeer) : (L.filter (·.addr.ip = ip)).length = ((L.map (·.addr)).filter (·.ip = ip)).length := by
      rw [List.filter_map, List.length_map]
      rfl
    rw [hcount, haddrs, ← hcount]
    exact h.perIp ip
  short := by
    have hlen := congrArg List.length haddrs
    rw [List.length_map, List.length_map] at hlen
    rw [hlen]
    exact h.short

theorem ListOk.concat (hnodup : (entries.map (·.addr)).Nodup) (hnew : ∀ q ∈ entries, q.addr ≠ peer.addr)
    (hip : ∀ ip, (entries.filter (·.addr.ip = ip)).length ≤ maxPeersPerIp)
    (hroom : (entries.filter (·.addr.ip = peer.addr.ip)).length < maxPeersPerIp) (hshort : entries.length < maxPeersPerHash) :
    ListOk (entries ++ [peer]) where
  nonempty := by simp
  nodup := by
    rw [List.map_append, List.nodup_append]
    refine ⟨hnodup, List.nodup_singleton _, fun a ha b hb => ?_⟩
    obtain ⟨q, hq, rfl⟩ := List.mem_map.mp ha
    rw [List.mem_singleton.mp hb]
    exact hnew q hq
  perIp ip := by
    rw [List.filter_append, List.length_append]
    by_cases hsame : peer.addr.ip = ip
    · subst hsame
      have : ([peer].filter (·.addr.ip = peer.addr.ip)).length = 1 := by simp
      omega
    · have : ([peer].filter (·.addr.ip = ip)).length = 0 := by simp [hsame]
      have := hip ip
      omega
  short := by
    rw [List.length_append]
    exact hshort

/-! ## Evictions -/

/-- Either there is room, or the oldest of the group goes. -/
theorem makeRoom_cases (entries : List StoredPeer) (p : StoredPeer → Bool) {limit : Nat} (hlimit : 0 < limit) (group : PeerGroup) :
    ((entries.filter p).length < limit ∧ makeRoom entries p limit group = (entries, [])) ∨
      ∃ peer i, limit ≤ (entries.filter p).length ∧ entries[i]? = some peer ∧ p peer = true ∧
        Eviction.Oldest ⟨group, peer, entries.filter p⟩ ∧
        makeRoom entries p limit group = (entries.eraseIdx i, [⟨group, peer, entries.filter p⟩]) := by
  unfold makeRoom
  by_cases hfull : limit ≤ (entries.filter p).length
  · rw [if_pos hfull]
    right
    obtain ⟨q, hq⟩ := List.exists_mem_of_length_pos (Nat.lt_of_lt_of_le hlimit hfull)
    have hmem (q : StoredPeer) (hq : q ∈ entries.filter p) : ∃ j, (q, j) ∈ entries.zipIdx.filter fun e => p e.1 := by
      obtain ⟨hq, hp⟩ := List.mem_filter.mp hq
      obtain ⟨j, hj⟩ := List.mem_iff_getElem?.mp hq
      exact ⟨j, List.mem_filter.mpr ⟨List.mem_zipIdx_iff_getElem?.mpr hj, hp⟩⟩
    cases hold : oldest entries p with
    | none =>
      obtain ⟨j, hj⟩ := hmem q hq
      rw [oldest, List.argmin_eq_none] at hold
      rw [hold] at hj
      exact absurd hj List.not_mem_nil
    | some e =>
      obtain ⟨peer, i⟩ := e
      have harg : (peer, i) ∈ (entries.zipIdx.filter fun e => p e.1).argmin fun e => e.1.seen := hold
      obtain ⟨hmem', hp⟩ := List.mem_filter.mp (List.argmin_mem harg)
      have hget : entries[i]? = some peer := List.mem_zipIdx_iff_getElem?.mp hmem'
      refine ⟨peer, i, hfull, hget, hp, ⟨List.mem_filter.mpr ⟨List.mem_of_getElem? hget, hp⟩, fun q hq => ?_⟩, rfl⟩
      obtain ⟨j, hj⟩ := hmem q hq
      exact List.le_of_mem_argmin (f := fun e : StoredPeer × Nat => e.1.seen) hj harg
  · rw [if_neg hfull]
    exact .inl ⟨not_le.mp hfull, rfl⟩

theorem length_eraseIdx_add_one (h : entries[i]? = some peer) : (entries.eraseIdx i).length + 1 = entries.length := by
  simpa using (cons_eraseIdx_perm h).length_eq

/-- The peer that goes leaves room in its group. -/
theorem length_filter_eraseIdx (h : entries[i]? = some peer) (hp : p peer = true) :
    ((entries.eraseIdx i).filter p).length + 1 = (entries.filter p).length := by
  simpa [hp] using ((cons_eraseIdx_perm h).filter p).length_eq

/-! ## The whole store -/

theorem mem_places :
    (hash, i, peer) ∈ places peers ↔ ∃ entries, peers.get? hash = some entries ∧ entries[i]? = some peer := by
  unfold places
  simp only [List.mem_flatMap, List.mem_map, Prod.exists, Prod.mk.injEq]
  constructor
  · rintro ⟨k, entries, hmem, q, j, hq, rfl, rfl, rfl⟩
    exact ⟨entries, OrdMap.get?_eq_some_iff.mpr hmem, List.mem_zipIdx_iff_getElem?.mp hq⟩
  · rintro ⟨entries, hget, hi⟩
    exact ⟨hash, entries, OrdMap.get?_eq_some_iff.mp hget, peer, i, List.mem_zipIdx_iff_getElem?.mpr hi, rfl, rfl, rfl⟩

theorem length_places (peers : StoredPeers) : (places peers).length = count peers := by
  unfold places count OrdMap.sumOf
  rw [List.length_flatMap]
  simp

/-- What is left where a peer is removed. -/
theorem get?_removeAt (hget : peers.get? hash = some entries) (k : Id20) :
    (removeAt peers hash i).get? k =
      if k = hash then if (entries.eraseIdx i).isEmpty then none else some (entries.eraseIdx i) else peers.get? k := by
  unfold removeAt
  rw [hget]
  dsimp only
  by_cases hempty : (entries.eraseIdx i).isEmpty
  · rw [if_pos hempty, if_pos hempty, OrdMap.get?_erase]
    split <;> rfl
  · rw [if_neg hempty, if_neg hempty, OrdMap.get?_insert]
    split <;> rfl

theorem count_insert (peers : StoredPeers) (hash : Id20) (entries : List StoredPeer) :
    count (peers.insert hash entries) + (peersOf peers hash).length = count peers + entries.length := by
  unfold count peersOf
  rw [OrdMap.sumOf_insert]
  cases hget : peers.get? hash with
  | none =>
    rw [OrdMap.erase_of_get?_none _ hget]
    simp
    omega
  | some old =>
    rw [OrdMap.sumOf_erase _ _ hget]
    simp
    omega

theorem count_removeAt (hget : peers.get? hash = some entries)
    (hi : entries[i]? = some peer) : count (removeAt peers hash i) + 1 = count peers := by
  have hlen := length_eraseIdx_add_one hi
  unfold removeAt
  rw [hget]
  dsimp only
  split
  · rename_i hempty
    rw [List.isEmpty_iff] at hempty
    rw [hempty] at hlen
    unfold count
    rw [OrdMap.sumOf_erase _ _ hget, ← hlen]
    simp only [List.length_nil]
    omega
  · have hinsert := count_insert peers hash (entries.eraseIdx i)
    simp only [peersOf, hget, Option.getD_some] at hinsert
    omega

/-- The peer that is the oldest of the whole store, and the store without it. -/
theorem argmin_places (hpos : 0 < count peers) :
    ∃ hash i peer entries, (places peers).argmin (fun e => e.2.2.seen) = some (hash, i, peer) ∧ peers.get? hash = some entries ∧
      entries[i]? = some peer ∧ Eviction.Oldest ⟨.store, peer, (places peers).map fun e => e.2.2⟩ := by
  cases harg : (places peers).argmin fun e => e.2.2.seen with
  | none =>
    rw [List.argmin_eq_none] at harg
    rw [← length_places, harg] at hpos
    exact absurd hpos (lt_irrefl 0)
  | some e =>
    obtain ⟨hash, i, peer⟩ := e
    have hmem := List.argmin_mem harg
    obtain ⟨entries, hget, hi⟩ := mem_places.mp hmem
    refine ⟨hash, i, peer, entries, rfl, hget, hi, ⟨List.mem_map.mpr ⟨_, hmem, rfl⟩, fun q hq => ?_⟩⟩
    obtain ⟨e, he, rfl⟩ := List.mem_map.mp hq
    exact List.le_of_mem_argmin (f := fun e : Id20 × Nat × StoredPeer => e.2.2.seen) he harg

/-- Removing a peer leaves each list as it was or without some peer. -/
theorem exists_sublist_removeAt (hget : peers.get? hash = some entries) {k : Id20}
    {fewer : List StoredPeer} (hk : (removeAt peers hash i).get? k = some fewer) :
    fewer ≠ [] ∧ (∃ all, peers.get? k = some all ∧ fewer.Sublist all) ∨ peers.get? k = some fewer := by
  rw [get?_removeAt hget] at hk
  split at hk
  · rename_i heq
    subst heq
    split at hk
    · cases hk
    · rename_i hne
      rw [← Option.some.inj hk]
      exact .inl ⟨fun hnil => hne (List.isEmpty_iff.mpr hnil), _, hget, List.eraseIdx_sublist ..⟩
  · exact .inr hk

theorem Sound.removeAt (h : s.Sound last) (hget : s.peers.get? hash = some entries) :
    Sound { s with peers := PeerStore.removeAt s.peers hash i } last where
  lists k fewer hk := by
    rcases exists_sublist_removeAt hget hk with ⟨hne, all, hall, hsub⟩ | hk
    · exact (h.lists _ _ hall).sublist hsub hne
    · exact h.lists _ _ hk
  hidden k hk := by
    dsimp only
    rw [get?_removeAt hget, if_neg, h.hidden k hk]
    rintro rfl
    rw [h.hidden k hk] at hget
    cases hget
  seen k fewer hk peer hmem := by
    rcases exists_sublist_removeAt hget hk with ⟨-, all, hall, hsub⟩ | hk
    · exact h.seen _ _ hall peer (hsub.subset hmem)
    · exact h.seen _ _ hk peer hmem

/-! ## What is left -/

theorem peersOf_insert (peers : StoredPeers) (hash k : Id20) (entries : List StoredPeer) :
    peersOf (peers.insert hash entries) k = if k = hash then entries else peersOf peers k := by
  unfold peersOf
  rw [OrdMap.get?_insert]
  by_cases heq : k = hash
  · rw [if_pos heq, if_pos heq, Option.getD_some]
  · rw [if_neg heq, if_neg heq]

/-- Only the peer that is removed is missing. -/
theorem mem_peersOf_removeAt (hget : peers.get? hash = some entries)
    (hi : entries[i]? = some peer) {k : Id20} {q : StoredPeer} (hq : q ∈ peersOf peers k) : q ∈ peersOf (removeAt peers hash i) k ∨ peer = q := by
  unfold peersOf at hq ⊢
  rw [get?_removeAt hget]
  by_cases heq : k = hash
  · rw [heq, hget, Option.getD_some] at hq
    rw [if_pos heq]
    rcases List.mem_cons.mp ((cons_eraseIdx_perm hi).symm.subset hq) with rfl | hmem
    · exact .inr rfl
    · rw [if_neg fun hempty => by simp [List.isEmpty_iff.mp hempty] at hmem]
      exact .inl hmem
  · rw [if_neg heq]
    exact .inl hq

/-! ## Announces -/

theorem Ok.of_hash (h : s.Ok last) (hash : Id20) : ((peersOf s.peers hash).map (·.addr)).Nodup ∧
    (∀ ip, ((peersOf s.peers hash).filter (·.addr.ip = ip)).length ≤ maxPeersPerIp) ∧
      (peersOf s.peers hash).length ≤ maxPeersPerHash ∧ ∀ peer ∈ peersOf s.peers hash, peer.seen ≤ last := by
  unfold peersOf
  cases hget : s.peers.get? hash with
  | none => simp
  | some entries => exact ⟨(h.lists _ _ hget).nodup, (h.lists _ _ hget).perIp, (h.lists _ _ hget).short, h.seen _ _ hget⟩

/-- A list that is as it should be takes the place of that of a hash that is not private. -/
theorem Sound.insert (h : s.Sound last) (hpublic : hash ∉ s.privateHashes) (hlast : last ≤ now) (hlist : ListOk entries)
    (hseen : ∀ peer ∈ entries, peer.seen ≤ now) : Sound { s with peers := s.peers.insert hash entries } now where
  lists k entries' hget := by
    rw [OrdMap.get?_insert] at hget
    split at hget
    · exact Option.some.inj hget ▸ hlist
    · exact h.lists k _ hget
  hidden k hk := by
    have hne : k ≠ hash := by
      rintro rfl
      exact hpublic hk
    rw [OrdMap.get?_insert_of_ne _ _ hne]
    exact h.hidden k hk
  seen k entries' hget := by
    rw [OrdMap.get?_insert] at hget
    split at hget
    · exact Option.some.inj hget ▸ hseen
    · exact fun peer hmem => (h.seen k _ hget peer hmem).trans hlast

/-- What an eviction is for: with the new peer its group would be too large. -/
def Due (s : PeerStore) (hash : Id20) (addr : SocketAddr) (now : Nat) (e : Eviction) : Prop :=
  match e.group with
  | .ip hash' ip => hash' = hash ∧ ip = addr.ip ∧ e.members = (peersOf s.peers hash).filter (·.addr.ip = ip) ∧ maxPeersPerIp ≤ e.members.length
  | .hash hash' => hash' = hash ∧ e.members = peersOf s.peers hash ∧ maxPeersPerHash ≤ e.members.length
  | .store => e.members = (places (s.peers.insert hash (peersOf s.peers hash ++ [⟨addr, now⟩]))).map (·.2.2) ∧ maxStoredPeers < e.members.length

/-- What an announce of a hash that is not private leads to. -/
structure Announced (s : PeerStore) (hash : Id20) (addr : SocketAddr) (now : Nat) (s' : PeerStore) (evicted : List Eviction) : Prop where
  ok : s'.Ok now
  stored : ∃ entries, s'.peers.get? hash = some entries ∧ ⟨addr, now⟩ ∈ entries
  one : evicted.length ≤ 1
  oldest : ∀ e ∈ evicted, e.Oldest ∧ Due s hash addr now e
  /-- Nothing else is gone, but for the time that the address itself was seen. -/
  kept : ∀ k, ∀ q ∈ peersOf s.peers k, q ∈ peersOf s'.peers k ∨ (k = hash ∧ q.addr = addr) ∨ ∃ e ∈ evicted, e.peer = q

/-- The loop takes out one peer at most, and not the new one. -/
theorem Ok.evictLoop_new (fuel : Nat) (h : s.Ok last) (hpublic : hash ∉ s.privateHashes) (hlast : last < now)
    (hlist : ListOk (peersOf s.peers hash ++ [⟨addr, now⟩])) :
    ∃ peers evicted, evictLoop (fuel + 2) (s.peers.insert hash (peersOf s.peers hash ++ [⟨addr, now⟩])) = some (peers, evicted) ∧
      Announced s hash addr now { s with peers := peers } evicted := by
  have hcount := count_insert s.peers hash (peersOf s.peers hash ++ [⟨addr, now⟩])
  rw [List.length_append, List.length_singleton] at hcount
  have htotal := h.total
  have hseen : ∀ peer ∈ peersOf s.peers hash ++ [⟨addr, now⟩], peer.seen ≤ now := by
    intro peer hmem
    rcases List.mem_append.mp hmem with hmem | hmem
    · exact ((h.of_hash hash).2.2.2 peer hmem).trans hlast.le
    · rw [List.mem_singleton.mp hmem]
  have hsound := h.toSound.insert hpublic hlast.le hlist hseen
  have hself : (s.peers.insert hash (peersOf s.peers hash ++ [⟨addr, now⟩])).get? hash = some (peersOf s.peers hash ++ [⟨addr, now⟩]) :=
    OrdMap.get?_insert_self ..
  have hinserted (k : Id20) (q : StoredPeer) (hq : q ∈ peersOf s.peers k) :
      q ∈ peersOf (s.peers.insert hash (peersOf s.peers hash ++ [⟨addr, now⟩])) k := by
    rw [peersOf_insert]
    split
    · rename_i heq
      exact List.mem_append_left _ (heq ▸ hq)
    · exact hq
  generalize hpeers : s.peers.insert hash (peersOf s.peers hash ++ [⟨addr, now⟩]) = peers at *
  by_cases hfull : maxStoredPeers < count peers
  · obtain ⟨k, i, peer, entries, harg, hget, hi, hold⟩ := argmin_places (lt_of_le_of_lt (Nat.zero_le _) hfull)
    have hremoved : count (PeerStore.removeAt peers k i) + 1 = count peers := count_removeAt hget hi
    have hothers : 0 < count s.peers := by
      unfold maxStoredPeers at hfull
      omega
    -- Another peer is there, which was seen earlier than the new one.
    have hearlier : peer.seen < now := by
      obtain ⟨k', i', q, entries', -, hget', hi', -⟩ := argmin_places hothers
      have hq : peers.get? k' = some (if k' = hash then entries' ++ [⟨addr, now⟩] else entries') := by
        rw [← hpeers, OrdMap.get?_insert]
        split
        · rename_i heq
          rw [peersOf, ← heq, hget', Option.getD_some]
        · exact hget'
      have hmem : q ∈ (places peers).map fun e => e.2.2 := by
        refine List.mem_map.mpr ⟨(k', i', q), mem_places.mpr ⟨_, hq, ?_⟩, rfl⟩
        split
        · rw [List.getElem?_append_left (List.getElem?_eq_some_iff.mp hi').1, hi']
        · exact hi'
      exact ((hold.oldest q hmem).trans (h.seen _ _ hget' q (List.mem_of_getElem? hi'))).trans_lt hlast
    refine ⟨_, [⟨.store, peer, (places peers).map fun e => e.2.2⟩], ?_, ⟨hsound.removeAt (i := i) hget, by dsimp only; omega⟩, ?_, le_rfl,
      fun e he => ?_, fun k' q hq => ?_⟩
    · rw [evictLoop, if_pos hfull, harg]
      dsimp only
      rw [evictLoop, if_neg (show ¬ maxStoredPeers < count (PeerStore.removeAt peers k i) by omega)]
      rfl
    · dsimp only
      rw [get?_removeAt hget]
      split
      · rename_i heq
        subst heq
        rw [hself] at hget
        have hentries := Option.some.inj hget
        have hnew : (⟨addr, now⟩ : StoredPeer) ∈ entries.eraseIdx i := by
          have hmem : (⟨addr, now⟩ : StoredPeer) ∈ peer :: entries.eraseIdx i :=
            (cons_eraseIdx_perm hi).symm.subset (hentries ▸ List.mem_append_right _ (List.mem_singleton_self _))
          rcases List.mem_cons.mp hmem with heq | hmem
          · rw [← heq] at hearlier
            exact absurd hearlier (lt_irrefl now)
          · exact hmem
        rw [if_neg fun hempty => by simp [List.isEmpty_iff.mp hempty] at hnew]
        exact ⟨_, rfl, hnew⟩
      · exact ⟨_, hself, by simp⟩
    · rw [List.mem_singleton.mp he]
      refine ⟨hold, by rw [hpeers], ?_⟩
      rw [List.length_map, length_places]
      exact hfull
    · rcases mem_peersOf_removeAt hget hi (hinserted k' q hq) with hleft | hpeer
      · exact .inl hleft
      · exact .inr (.inr ⟨_, List.mem_singleton_self _, hpeer⟩)
  · refine ⟨peers, [], ?_, ⟨hsound, not_lt.mp hfull⟩, ⟨_, hself, by simp⟩, Nat.zero_le _, nofun, fun k q hq => .inl (hinserted k q hq)⟩
    rw [evictLoop]
    exact if_neg hfull

/-- Where a peer of the same hash has gone, the store is not larger than before. -/
theorem Ok.evictLoop_replaced (fuel : Nat) (h : s.Ok last) (addr : SocketAddr) (hpublic : hash ∉ s.privateHashes) (hlast : last < now)
    (hi : (peersOf s.peers hash)[i]? = some peer)
    (hlist : ListOk ((peersOf s.peers hash).eraseIdx i ++ [⟨addr, now⟩])) {e : Eviction} (hpeer : e.peer = peer) (hold : e.Oldest)
    (hdue : Due s hash addr now e) :
    ∃ peers evicted, evictLoop (fuel + 2) (s.peers.insert hash ((peersOf s.peers hash).eraseIdx i ++ [⟨addr, now⟩])) = some (peers, evicted) ∧
      Announced s hash addr now { s with peers := peers } (e :: evicted) := by
  have hcount := count_insert s.peers hash ((peersOf s.peers hash).eraseIdx i ++ [⟨addr, now⟩])
  have hlen := length_eraseIdx_add_one hi
  have htotal := h.total
  rw [List.length_append, List.length_singleton] at hcount
  have hfits : count (s.peers.insert hash ((peersOf s.peers hash).eraseIdx i ++ [⟨addr, now⟩])) ≤ maxStoredPeers := by omega
  refine ⟨_, [], ?_, ⟨h.toSound.insert hpublic hlast.le hlist fun q hq => ?_, hfits⟩, ⟨_, OrdMap.get?_insert_self .., by simp⟩, le_rfl, fun e' he' => ?_,
    fun k q hq => ?_⟩
  · rw [evictLoop]
    exact if_neg (not_lt.mpr hfits)
  · rcases List.mem_append.mp hq with hq | hq
    · exact ((h.of_hash hash).2.2.2 q (List.mem_of_mem_eraseIdx hq)).trans hlast.le
    · rw [List.mem_singleton.mp hq]
  · rw [List.mem_singleton.mp he']
    exact ⟨hold, hdue⟩
  · rw [peersOf_insert]
    split
    · rename_i heq
      rcases List.mem_cons.mp ((cons_eraseIdx_perm hi).symm.subset (heq ▸ hq)) with rfl | hmem
      · exact .inr (.inr ⟨e, List.mem_singleton_self _, hpeer⟩)
      · exact .inl (List.mem_append_left _ hmem)
    · exact .inl hq

/-- An announce of an address that is stored sets the time that it was seen. -/
theorem Ok.refresh (h : s.Ok last) (hpublic : hash ∉ s.privateHashes) (hlast : last < now)
    (hi : (peersOf s.peers hash).findIdx? (·.addr = addr) = some i) :
    Announced s hash addr now
      { s with peers := s.peers.insert hash ((peersOf s.peers hash).modify i fun peer => { peer with seen := now }) } [] := by
  obtain ⟨hlt, haddr, -⟩ := List.findIdx?_eq_some_iff_getElem.mp hi
  have hne : peersOf s.peers hash ≠ [] := List.ne_nil_of_length_pos (by omega)
  have hlist : ListOk (peersOf s.peers hash) := by
    unfold peersOf at hne ⊢
    cases hget : s.peers.get? hash with
    | none => simp [hget] at hne
    | some entries => exact h.lists _ _ hget
  have hcount := count_insert s.peers hash ((peersOf s.peers hash).modify i fun peer => { peer with seen := now })
  have htotal := h.total
  rw [List.length_modify] at hcount
  refine ⟨⟨h.toSound.insert hpublic hlast.le (hlist.of_addrs (map_modify_eq (g := fun peer : StoredPeer => peer.addr)
      (f := fun peer => { peer with seen := now }) (fun _ => rfl) i _)) fun q hq => ?_, by dsimp only; omega⟩,
    ⟨_, OrdMap.get?_insert_self .., ?_⟩, Nat.zero_le _, nofun, fun k q hq => ?_⟩
  · obtain ⟨k, hk⟩ := List.mem_iff_getElem?.mp hq
    rw [List.getElem?_modify] at hk
    obtain ⟨q', hq', rfl⟩ := Option.map_eq_some_iff.mp hk
    split
    · exact le_rfl
    · exact ((h.of_hash hash).2.2.2 q' (List.mem_of_getElem? hq')).trans hlast.le
  · refine List.mem_iff_getElem?.mpr ⟨i, ?_⟩
    rw [List.getElem?_modify, List.getElem?_eq_getElem hlt, ← of_decide_eq_true haddr]
    simp
  · rw [peersOf_insert]
    split
    · rename_i heq
      obtain ⟨j, hj⟩ := List.mem_iff_getElem?.mp (heq ▸ hq)
      by_cases hji : i = j
      · subst hji
        rw [List.getElem?_eq_getElem hlt] at hj
        exact .inr (.inl ⟨heq, Option.some.inj hj ▸ of_decide_eq_true haddr⟩)
      · refine .inl (List.mem_iff_getElem?.mpr ⟨j, ?_⟩)
        rw [List.getElem?_modify, hj]
        simp [hji]
    · exact .inl hq

/-- An announce of a hash that is not private ends, with the address stored and with one peer at most gone, which was the oldest of a full group. -/
theorem Ok.addPeer (h : s.Ok last) (hpublic : hash ∉ s.privateHashes) (addr : SocketAddr) (hlast : last < now) (fuel : Nat) :
    ∃ s' evicted, s.addPeer (fuel + 2) hash addr now = some (s', evicted) ∧ Announced s hash addr now s' evicted := by
  obtain ⟨hnodup, hip, hshort, -⟩ := h.of_hash hash
  unfold PeerStore.addPeer
  rw [if_neg hpublic]
  dsimp only
  cases hfind : (peersOf s.peers hash).findIdx? (·.addr = addr) with
  | some i => exact ⟨_, _, rfl, h.refresh hpublic hlast hfind⟩
  | none =>
    have hnew : ∀ q ∈ peersOf s.peers hash, q.addr ≠ addr := fun q hq => of_decide_eq_false (List.findIdx?_eq_none_iff.mp hfind q hq)
    have hpos : 0 < maxPeersPerIp ∧ 0 < maxPeersPerHash := by decide
    have hfilter (L : List StoredPeer) : L.filter (fun _ => true) = L := List.filter_eq_self.mpr fun _ _ => rfl
    dsimp only
    rcases makeRoom_cases (peersOf s.peers hash) (fun peer => peer.addr.ip = addr.ip) hpos.1 (.ip hash addr.ip) with
      ⟨hroom, heq⟩ | ⟨peer, i, hfull, hi, hp, hold, heq⟩
    · rw [heq]
      dsimp only
      rcases makeRoom_cases (peersOf s.peers hash) (fun _ => true) hpos.2 (.hash hash) with ⟨hroom', heq'⟩ | ⟨peer, i, hfull, hi, -, hold, heq'⟩
      · rw [hfilter] at hroom'
        obtain ⟨peers, evicted, hloop, hann⟩ := h.evictLoop_new fuel hpublic hlast (.concat hnodup hnew hip hroom hroom')
        exact ⟨_, evicted, by rw [heq', hloop]; rfl, hann⟩
      · rw [hfilter] at hfull hold heq'
        have hsub := List.eraseIdx_sublist (peersOf s.peers hash) i
        have hlen := length_eraseIdx_add_one hi
        obtain ⟨peers, evicted, hloop, hann⟩ := h.evictLoop_replaced fuel addr hpublic hlast hi
          (.concat (hnodup.sublist (hsub.map _)) (fun q hq => hnew q (hsub.subset hq)) (fun ip => (hsub.filter _).length_le.trans (hip ip))
            ((hsub.filter _).length_le.trans_lt hroom) (by omega)) rfl hold ⟨rfl, rfl, hfull⟩
        exact ⟨_, _, by rw [heq', hloop]; rfl, hann⟩
    · have hsub := List.eraseIdx_sublist (peersOf s.peers hash) i
      have hlen := length_eraseIdx_add_one hi
      have hless := length_filter_eraseIdx (p := fun peer => peer.addr.ip = addr.ip) hi hp
      have hip' := hip addr.ip
      rw [heq]
      dsimp only
      rcases makeRoom_cases ((peersOf s.peers hash).eraseIdx i) (fun _ => true) hpos.2 (.hash hash) with ⟨-, heq'⟩ | ⟨-, -, hfull', -⟩
      · obtain ⟨peers, evicted, hloop, hann⟩ := h.evictLoop_replaced fuel addr hpublic hlast hi
          (.concat (hnodup.sublist (hsub.map _)) (fun q hq => hnew q (hsub.subset hq)) (fun ip => (hsub.filter _).length_le.trans (hip ip))
            (by dsimp only; omega) (by omega)) rfl hold ⟨rfl, rfl, rfl, hfull⟩
        exact ⟨_, _, by rw [heq', hloop]; rfl, hann⟩
      · rw [hfilter] at hfull'
        omega

/-- More fuel changes nothing. -/
theorem evictLoop_add {fuel : Nat} {r : StoredPeers × List Eviction} (h : evictLoop fuel peers = some r) (k : Nat) :
    evictLoop (fuel + k) peers = some r := by
  induction fuel generalizing peers r with
  | zero => cases h
  | succ fuel ih =>
    rw [show fuel + 1 + k = fuel + k + 1 by omega]
    rw [evictLoop] at h ⊢
    by_cases hfull : maxStoredPeers < count peers
    · rw [if_pos hfull] at h ⊢
      cases harg : (places peers).argmin fun e => e.2.2.seen with
      | none =>
        rw [harg] at h
        exact h
      | some e =>
        rw [harg] at h
        obtain ⟨r', hr, rfl⟩ := Option.map_eq_some_iff.mp h
        dsimp only
        rw [ih hr, Option.map_some]
    · rw [if_neg hfull] at h ⊢
      exact h

theorem addPeer_add {fuel : Nat} {r : PeerStore × List Eviction} (h : s.addPeer fuel hash addr now = some r)
    (k : Nat) : s.addPeer (fuel + k) hash addr now = some r := by
  unfold PeerStore.addPeer at h ⊢
  split at h
  · simp_all
  · dsimp only at h ⊢
    split at h
    · simp_all
    · obtain ⟨r', hr, rfl⟩ := Option.map_eq_some_iff.mp h
      rw [evictLoop_add hr]
      simp_all

/-! ## The other calls -/

/-- The list of a hash goes, which may then be private. -/
theorem Ok.erase (h : s.Ok last) (hlast : last ≤ now) (hash : Id20) {privateHashes : List Id20}
    (hprivate : privateHashes ⊆ hash :: s.privateHashes) : Ok ⟨s.peers.erase hash, privateHashes⟩ now := by
  have hkept (k : Id20) (entries : List StoredPeer) (hk : (s.peers.erase hash).get? k = some entries) : s.peers.get? k = some entries := by
    rw [OrdMap.get?_erase] at hk
    split at hk
    · cases hk
    · exact hk
  refine ⟨⟨fun k entries hk => h.lists k _ (hkept k entries hk), fun k hk => ?_,
    fun k entries hk peer hmem => (h.seen k _ (hkept k entries hk) peer hmem).trans hlast⟩, (OrdMap.sumOf_le fun k entries hk => ?_).trans h.total⟩
  · rw [OrdMap.get?_erase]
    split
    · rfl
    · rename_i hne
      exact h.hidden k ((List.mem_cons.mp (hprivate hk)).resolve_left hne)
  · rw [hkept k entries hk]
    exact le_rfl

theorem Ok.getPeers (h : s.Ok last) (hash : Id20) (family : Option Bool) (now : Nat) : (s.getPeers hash family now).2.Ok last := by
  unfold PeerStore.getPeers
  cases hget : s.peers.get? hash with
  | none => exact h
  | some entries =>
    have hpublic : hash ∉ s.privateHashes := fun hp => by
      rw [h.hidden hash hp] at hget
      cases hget
    have hsub : (entries.filter fun peer => now - peer.seen ≤ peerStoreTtl).Sublist entries := List.filter_sublist
    dsimp only
    split
    · exact h.erase le_rfl hash (List.subset_cons_self ..)
    · rename_i hne
      have hcount := count_insert s.peers hash (entries.filter fun peer => now - peer.seen ≤ peerStoreTtl)
      simp only [peersOf, hget, Option.getD_some] at hcount
      have hle := hsub.length_le
      have htotal := h.total
      exact ⟨h.toSound.insert hpublic le_rfl ((h.lists _ _ hget).sublist hsub fun hnil => hne (List.isEmpty_iff.mpr hnil))
        fun peer hmem => h.seen _ _ hget peer (hsub.subset hmem), by dsimp only; omega⟩

theorem Ok.setPrivate (h : s.Ok last) (hash : Id20) (isPrivate : Bool) : (s.setPrivate hash isPrivate).Ok last := by
  unfold PeerStore.setPrivate
  cases isPrivate with
  | false => exact ⟨⟨h.lists, fun k hk => h.hidden k (List.mem_of_mem_filter hk), h.seen⟩, h.total⟩
  | true => exact h.erase le_rfl hash (List.Subset.refl _)

end PeerStore

end Risuko
