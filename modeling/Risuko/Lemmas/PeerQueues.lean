import Risuko.Torrent.PeerQueues

/-!
# The normal form of the dial queues

`Sifted` says what one loop of `normalize_peer_queues` does to the addresses of its queue and to what it has seen; the four loops
compose (`Sifted.append`). `PeerQueues.Normal` is the normal form, and `PeerQueues.DroppedOnly` says which addresses may be missing
from it.
-/

namespace Risuko

/-! ## One loop -/

/-- The addresses that a loop over `ins` keeps are `outs`, and it takes `a` to `a'`. -/
structure Sifted (ins outs : List SocketAddr) (a a' : Accepted) : Prop where
  sub : outs.Sublist ins
  seen : a'.seen = a.seen ∪ outs.toFinset
  queued : a'.queued = a.queued + outs.length
  nodup : outs.Nodup
  fresh : ∀ x ∈ outs, x ∉ a.seen
  dialable : ∀ x ∈ outs, isDialablePeerAddr x = true
  cap : a.queued ≤ maxPeerBacklog → a'.queued ≤ maxPeerBacklog
  kept : ∀ x ∈ ins, x ∈ a'.seen ∨ isDialablePeerAddr x = false ∨ maxPeerBacklog ≤ a'.queued

theorem Sifted.nil (a : Accepted) : Sifted [] [] a a where
  sub := List.Sublist.slnil
  seen := by simp
  queued := by simp
  nodup := List.nodup_nil
  fresh := by simp
  dialable := by simp
  cap := id
  kept := by simp

/-- An address that is not accepted changes nothing, and there is a reason for it. -/
theorem Sifted.skip {ins outs : List SocketAddr} {a a' : Accepted} {x : SocketAddr} (h : Sifted ins outs a a')
    (hx : maxPeerBacklog ≤ a.queued ∨ isDialablePeerAddr x = false ∨ x ∈ a.seen) : Sifted (x :: ins) outs a a' := by
  refine ⟨h.sub.cons x, h.seen, h.queued, h.nodup, h.fresh, h.dialable, h.cap, ?_⟩
  intro y hy
  rcases List.mem_cons.mp hy with rfl | hy
  · rcases hx with hfull | hnot | hseen
    · right
      right
      rw [h.queued]
      omega
    · exact Or.inr (Or.inl hnot)
    · left
      rw [h.seen]
      exact Finset.mem_union_left _ hseen
  · exact h.kept y hy

/-- An address that is accepted. -/
theorem Sifted.take {ins outs : List SocketAddr} {a a' : Accepted} {x : SocketAddr}
    (h : Sifted ins outs { seen := insert x a.seen, queued := a.queued + 1 } a') (hroom : a.queued < maxPeerBacklog)
    (hdial : isDialablePeerAddr x = true) (hfresh : x ∉ a.seen) : Sifted (x :: ins) (x :: outs) a a' := by
  have hnotin : x ∉ outs := fun hx => h.fresh x hx (Finset.mem_insert_self x _)
  refine ⟨h.sub.cons_cons x, ?_, ?_, List.nodup_cons.mpr ⟨hnotin, h.nodup⟩, ?_, ?_, fun _ => h.cap hroom, ?_⟩
  · rw [h.seen]
    ext y
    simp only [Finset.mem_union, Finset.mem_insert, List.toFinset_cons]
    tauto
  · rw [h.queued, List.length_cons]
    simp only
    omega
  · intro y hy
    rcases List.mem_cons.mp hy with rfl | hy
    · exact hfresh
    · exact fun hs => h.fresh y hy (Finset.mem_insert_of_mem hs)
  · intro y hy
    rcases List.mem_cons.mp hy with rfl | hy
    · exact hdial
    · exact h.dialable y hy
  · intro y hy
    rcases List.mem_cons.mp hy with rfl | hy
    · left
      rw [h.seen]
      exact Finset.mem_union_left _ (Finset.mem_insert_self _ _)
    · exact h.kept y hy

/-- One after the other, two loops are a loop over both queues. -/
theorem Sifted.append {ins outs ins' outs' : List SocketAddr} {a b c : Accepted} (h : Sifted ins outs a b)
    (h' : Sifted ins' outs' b c) : Sifted (ins ++ ins') (outs ++ outs') a c := by
  have hlater : ∀ x ∈ outs', x ∉ a.seen ∧ x ∉ outs := by
    intro x hx
    have hnot := h'.fresh x hx
    rw [h.seen, Finset.mem_union, List.mem_toFinset, not_or] at hnot
    exact hnot
  refine ⟨h.sub.append h'.sub, ?_, ?_, ?_, ?_, ?_, fun hc => h'.cap (h.cap hc), ?_⟩
  · rw [h'.seen, h.seen, List.toFinset_append, Finset.union_assoc]
  · rw [h'.queued, h.queued, List.length_append]
    omega
  · refine List.nodup_append.mpr ⟨h.nodup, h'.nodup, ?_⟩
    rintro x hx y hy rfl
    exact (hlater x hy).2 hx
  · intro x hx
    rcases List.mem_append.mp hx with hx | hx
    · exact h.fresh x hx
    · exact (hlater x hx).1
  · intro x hx
    rcases List.mem_append.mp hx with hx | hx
    · exact h.dialable x hx
    · exact h'.dialable x hx
  · intro x hx
    rcases List.mem_append.mp hx with hx | hx
    · rcases h.kept x hx with hs | hd | hq
      · left
        rw [h'.seen]
        exact Finset.mem_union_left _ hs
      · exact Or.inr (Or.inl hd)
      · right
        right
        rw [h'.queued]
        omega
    · exact h'.kept x hx

/-- What a loop of `normalize_peer_queues` does. -/
theorem keepAccepted_sifted {α : Type} (addrOf : α → SocketAddr) (xs : List α) (a : Accepted) :
    Sifted (xs.map addrOf) ((keepAccepted addrOf xs a).1.map addrOf) a (keepAccepted addrOf xs a).2 := by
  induction xs generalizing a with
  | nil => exact Sifted.nil a
  | cons x xs ih =>
    unfold keepAccepted
    split
    · rename_i hskip
      simp only [Bool.or_eq_true, decide_eq_true_eq, Bool.not_eq_true', or_assoc] at hskip
      exact (ih a).skip hskip
    · rename_i htake
      simp only [Bool.or_eq_true, decide_eq_true_eq, Bool.not_eq_true', not_or, not_le, Bool.not_eq_false] at htake
      exact (ih _).take htake.1.1 htake.1.2 htake.2

/-! ## The normal form -/

namespace PeerQueues

/-- The queued addresses, in the order of the queues' precedence. -/
def queuedAddrs (s : PeerQueues) : List SocketAddr :=
  s.priorityBacklog ++ (s.usefulRedials.map Prod.fst ++ (s.dialRetries.map Prod.fst ++ s.peerBacklog))

/-- The normal form: no address is queued twice, none is queued that has a peer or a dial, no queue is over its cap, and the known
addresses are those with a peer, a dial or a queue entry. -/
structure Normal (s : PeerQueues) : Prop where
  nodup : s.queuedAddrs.Nodup
  idle : ∀ addr ∈ s.queuedAddrs, addr ∉ s.activeAddrs
  capped : s.priorityBacklog.length ≤ maxPeerBacklog ∧ s.usefulRedials.length ≤ maxPeerBacklog ∧
    s.dialRetries.length ≤ maxPeerBacklog ∧ s.peerBacklog.length ≤ maxPeerBacklog
  known : s.knownAddrs = s.activeAddrs ∪ s.queuedAddrs.toFinset

/-- Every address queued in `s` is queued in `s'` too, unless it has a peer or a dial, cannot be dialled, or fell to the cap. -/
def DroppedOnly (s s' : PeerQueues) : Prop :=
  ∀ addr ∈ s.queuedAddrs, addr ∈ s'.queuedAddrs ∨ addr ∈ s.activeAddrs ∨ isDialablePeerAddr addr = false ∨
    s'.queued = maxPeerBacklog

theorem length_queuedAddrs (s : PeerQueues) : s.queuedAddrs.length = s.queued := by
  simp only [queuedAddrs, queued, List.length_append, List.length_map]
  omega

/-- What `normalize_peer_queues` does to all the queued addresses, as one loop over them. -/
theorem normalize_sifted (s : PeerQueues) (active : Finset SocketAddr) :
    Sifted s.queuedAddrs (s.normalizePeerQueues active).queuedAddrs { seen := active, queued := 0 }
      { seen := (s.normalizePeerQueues active).knownAddrs, queued := (s.normalizePeerQueues active).queued } := by
  have hp := keepAccepted_sifted id s.priorityBacklog { seen := active, queued := 0 }
  have hu := keepAccepted_sifted Prod.fst s.usefulRedials (keepAccepted id s.priorityBacklog { seen := active, queued := 0 }).2
  have hr := keepAccepted_sifted Prod.fst s.dialRetries (keepAccepted Prod.fst s.usefulRedials
    (keepAccepted id s.priorityBacklog { seen := active, queued := 0 }).2).2
  have hb := keepAccepted_sifted id s.peerBacklog (keepAccepted Prod.fst s.dialRetries (keepAccepted Prod.fst s.usefulRedials
    (keepAccepted id s.priorityBacklog { seen := active, queued := 0 }).2).2).2
  have hall := hp.append (hu.append (hr.append hb))
  simp only [List.map_id] at hall
  have hcount : (s.normalizePeerQueues active).queued = (keepAccepted id s.peerBacklog (keepAccepted Prod.fst s.dialRetries
      (keepAccepted Prod.fst s.usefulRedials (keepAccepted id s.priorityBacklog { seen := active, queued := 0 }).2).2).2).2.queued := by
    rw [← length_queuedAddrs, hall.queued]
    simp [normalizePeerQueues, queuedAddrs]
  rw [hcount]
  exact hall

theorem normalize_activeAddrs (s : PeerQueues) (active : Finset SocketAddr) :
    (s.normalizePeerQueues active).activeAddrs = s.activeAddrs := rfl

/-- After `normalize_peer_queues` with the active addresses the queues are in normal form. -/
theorem normal_normalize (s : PeerQueues) : (s.normalizePeerQueues s.activeAddrs).Normal := by
  have h := s.normalize_sifted s.activeAddrs
  have hcap : (s.normalizePeerQueues s.activeAddrs).queued ≤ maxPeerBacklog := h.cap (Nat.zero_le _)
  unfold queued at hcap
  exact ⟨h.nodup, h.fresh, ⟨by omega, by omega, by omega, by omega⟩, h.seen⟩

theorem droppedOnly_normalize (s : PeerQueues) : s.DroppedOnly (s.normalizePeerQueues s.activeAddrs) := by
  intro addr haddr
  have h := s.normalize_sifted s.activeAddrs
  have hcap : (s.normalizePeerQueues s.activeAddrs).queued ≤ maxPeerBacklog := h.cap (Nat.zero_le _)
  rcases h.kept addr haddr with hseen | hnot | hfull
  · rw [h.seen, Finset.mem_union, List.mem_toFinset] at hseen
    rcases hseen with hact | hq
    · exact Or.inr (Or.inl hact)
    · exact Or.inl hq
  · exact Or.inr (Or.inr (Or.inl hnot))
  · exact Or.inr (Or.inr (Or.inr (le_antisymm hcap hfull)))

/-- Queues without a repetition, without an address that is active or cannot be dialled, and within the cap lose nothing. -/
theorem normalize_queuedAddrs {s : PeerQueues} {active : Finset SocketAddr} (hnodup : s.queuedAddrs.Nodup)
    (hdial : ∀ x ∈ s.queuedAddrs, isDialablePeerAddr x = true) (hidle : ∀ x ∈ s.queuedAddrs, x ∉ active)
    (hcap : s.queuedAddrs.length ≤ maxPeerBacklog) : (s.normalizePeerQueues active).queuedAddrs = s.queuedAddrs := by
  have h := s.normalize_sifted active
  refine h.sub.eq_of_length (le_antisymm h.sub.length_le ?_)
  by_contra hlt
  have hsub : s.queuedAddrs ⊆ (s.normalizePeerQueues active).queuedAddrs := by
    intro x hx
    rcases h.kept x hx with hseen | hnot | hfull
    · rw [h.seen, Finset.mem_union, List.mem_toFinset] at hseen
      exact hseen.resolve_left (hidle x hx)
    · rw [hdial x hx] at hnot
      cases hnot
    · rw [h.queued] at hfull
      simp only at hfull
      omega
  exact hlt (hnodup.subperm hsub).length_le

/-! ## Promotion -/

theorem unqueue_queuedAddrs (s : PeerQueues) (addr : SocketAddr) :
    (s.unqueuePeerAddr addr).queuedAddrs = s.queuedAddrs.filter (fun x => x ≠ addr) := by
  simp only [queuedAddrs, unqueuePeerAddr, List.filter_append, List.filter_map]
  rfl

/-- An eviction takes one entry out of queues that are not all empty, and leaves the peers and the dials. -/
theorem evict_some {s : PeerQueues} (h : 0 < s.queued) :
    (∃ addr, s.evict.1 = some addr) ∧ s.evict.2.queuedAddrs.Sublist s.queuedAddrs ∧
      s.evict.2.queuedAddrs.length + 1 = s.queuedAddrs.length ∧ s.evict.2.activeAddrs = s.activeAddrs := by
  have hlast : ∀ {α : Type} {L : List α} {x : α}, L.getLast? = some x → L.dropLast.length + 1 = L.length := by
    intro α L x hx
    have hne : L ≠ [] := by
      rintro rfl
      cases hx
    rw [List.length_dropLast]
    have := List.length_pos_iff.mpr hne
    omega
  unfold evict
  split
  · rename_i addr hx
    have hlen := hlast hx
    refine ⟨⟨addr, rfl⟩, ?_, ?_, rfl⟩
    · exact (List.Sublist.refl _).append ((List.Sublist.refl _).append ((List.Sublist.refl _).append (List.dropLast_sublist _)))
    · simp only [queuedAddrs, List.length_append]
      omega
  · split
    · rename_i e hx
      have hlen := hlast hx
      refine ⟨⟨e.1, rfl⟩, ?_, ?_, rfl⟩
      · exact (List.Sublist.refl _).append ((List.Sublist.refl _).append
          (((List.dropLast_sublist _).map _).append (List.Sublist.refl _)))
      · simp only [queuedAddrs, List.length_append, List.length_map]
        omega
    · split
      · rename_i e hx
        have hlen := hlast hx
        refine ⟨⟨e.1, rfl⟩, ?_, ?_, rfl⟩
        · exact (List.Sublist.refl _).append (((List.dropLast_sublist _).map _).append (List.Sublist.refl _))
        · simp only [queuedAddrs, List.length_append, List.length_map]
          omega
      · split
        · rename_i addr hx
          have hlen := hlast hx
          refine ⟨⟨addr, rfl⟩, ?_, ?_, rfl⟩
          · exact (List.dropLast_sublist _).append (List.Sublist.refl _)
          · simp only [queuedAddrs, List.length_append]
            omega
        · rename_i _ hb _ hr _ hu _ hp
          simp only [List.getLast?_eq_none_iff] at hb hr hu hp
          simp [queued, hb, hr, hu, hp] at h

/-- The room `promote_holepunch_candidate` makes for an address that is not queued: nothing happens below the cap, and at the cap
one entry goes. -/
def makeRoom (s : PeerQueues) (addr : SocketAddr) : Option SocketAddr × PeerQueues :=
  if maxPeerBacklog ≤ s.queued then s.evict else (some addr, s)

/-- After it there is a place for the address, and one entry went if there was none. -/
theorem makeRoom_spec {s : PeerQueues} (addr : SocketAddr) (hcap : s.queued ≤ maxPeerBacklog) :
    (∃ evicted, (s.makeRoom addr).1 = some evicted) ∧ (s.makeRoom addr).2.queuedAddrs.Sublist s.queuedAddrs ∧
      (s.makeRoom addr).2.activeAddrs = s.activeAddrs ∧
      ((s.makeRoom addr).2.queuedAddrs.length + 1 = maxPeerBacklog ∨
        (s.makeRoom addr).2 = s ∧ s.queued < maxPeerBacklog) := by
  unfold makeRoom
  split
  · rename_i hfull
    obtain ⟨hsome, hsub, hlen, hact⟩ := evict_some (s := s) (Nat.lt_of_lt_of_le (by decide) hfull)
    rw [length_queuedAddrs s] at hlen
    exact ⟨hsome, hsub, hact, Or.inl (by omega)⟩
  · exact ⟨⟨addr, rfl⟩, List.Sublist.refl _, rfl, Or.inr ⟨rfl, by omega⟩⟩

/-- After `promote_holepunch_candidate`, whatever it answers, the queues are in normal form, and only what had to go is gone. -/
theorem promote_spec (s : PeerQueues) (addr : SocketAddr) :
    (s.promoteHolepunchCandidate addr).1.Normal ∧ s.DroppedOnly (s.promoteHolepunchCandidate addr).1 := by
  have hn := s.normal_normalize
  have hd := s.droppedOnly_normalize
  have hsift := s.normalize_sifted s.activeAddrs
  have hcap : (s.normalizePeerQueues s.activeAddrs).queued ≤ maxPeerBacklog := hsift.cap (Nat.zero_le _)
  unfold promoteHolepunchCandidate
  simp only
  split
  · exact ⟨hn, hd⟩
  · rename_i hguard
    simp only [Bool.or_eq_true, Bool.not_eq_true', decide_eq_true_eq, not_or, Bool.not_eq_false] at hguard
    generalize hs1 : s.normalizePeerQueues s.activeAddrs = s1 at hn hd hsift hcap ⊢
    have hact1 : s1.activeAddrs = s.activeAddrs := by rw [← hs1, normalize_activeAddrs]
    generalize hs2 : s1.unqueuePeerAddr addr = s2
    have hq2 : s2.queuedAddrs = s1.queuedAddrs.filter (fun x => x ≠ addr) := by rw [← hs2, unqueue_queuedAddrs]
    have hact2 : s2.activeAddrs = s.activeAddrs := by rw [← hact1, ← hs2]; rfl
    have hcap2 : s2.queued ≤ maxPeerBacklog := by
      rw [← length_queuedAddrs, hq2]
      exact le_trans (List.length_filter_le _ _) (by rw [length_queuedAddrs]; exact hcap)
    obtain ⟨⟨evicted, hsome⟩, hsub3, hact3, hroom⟩ := makeRoom_spec addr hcap2
    have hfold : (if maxPeerBacklog ≤ s2.queued then s2.evict else (some addr, s2)) = s2.makeRoom addr := rfl
    rw [hfold, hsome]
    generalize (s2.makeRoom addr).2 = s3 at hsub3 hact3 hroom ⊢
    simp only
    set s4 : PeerQueues := { s3 with priorityBacklog := addr :: s3.priorityBacklog } with hs4
    have hq4 : s4.queuedAddrs = addr :: s3.queuedAddrs := rfl
    have hact4 : s4.activeAddrs = s.activeAddrs := hact3.trans hact2
    have hmem3 : ∀ x ∈ s3.queuedAddrs, x ∈ s1.queuedAddrs ∧ x ≠ addr := by
      intro x hx
      have := hsub3.subset hx
      rw [hq2, List.mem_filter] at this
      exact ⟨this.1, by simpa using this.2⟩
    have hlen3 : s3.queuedAddrs.length + 1 ≤ maxPeerBacklog := by
      rcases hroom with hfull | ⟨he, hlt⟩
      · exact hfull.le
      · rw [he, length_queuedAddrs]
        exact hlt
    -- Nothing is lost by normalizing again.
    have hq5 : (s4.normalizePeerQueues s.activeAddrs).queuedAddrs = addr :: s3.queuedAddrs := by
      rw [normalize_queuedAddrs, hq4]
      · rw [hq4, List.nodup_cons]
        refine ⟨fun hx => (hmem3 addr hx).2 rfl, hsub3.nodup ?_⟩
        rw [hq2]
        exact hn.nodup.filter _
      · intro x hx
        rcases List.mem_cons.mp (hq4 ▸ hx) with rfl | hx
        · exact hguard.1
        · exact hsift.dialable x (hmem3 x hx).1
      · intro x hx
        rcases List.mem_cons.mp (hq4 ▸ hx) with rfl | hx
        · exact hguard.2
        · rw [← hact1]
          exact hn.idle x (hmem3 x hx).1
      · rw [hq4, List.length_cons]
        exact hlen3
    have hnormal := s4.normal_normalize
    rw [hact4] at hnormal
    refine ⟨hnormal, fun x hx => ?_⟩
    by_cases hfull : (s4.normalizePeerQueues s.activeAddrs).queued = maxPeerBacklog
    · exact Or.inr (Or.inr (Or.inr hfull))
    · -- Below the cap no entry was evicted, and the first pass dropped none for the cap.
      have hlt : s3.queuedAddrs.length + 1 < maxPeerBacklog := by
        rw [← length_queuedAddrs, hq5, List.length_cons] at hfull
        omega
      obtain ⟨he, -⟩ := hroom.resolve_left (by omega)
      rcases hd x hx with hx1 | hact | hnot | hcap1
      · left
        rw [hq5, List.mem_cons, he, hq2, List.mem_filter]
        by_cases hxa : x = addr
        · exact Or.inl hxa
        · exact Or.inr ⟨hx1, by simpa using hxa⟩
      · exact Or.inr (Or.inl hact)
      · exact Or.inr (Or.inr (Or.inl hnot))
      · exfalso
        have hle : s1.queuedAddrs.length ≤ s3.queuedAddrs.length + 1 := by
          rw [he, hq2]
          have herase := hn.nodup.erase_eq_filter addr
          have hfil : s1.queuedAddrs.filter (fun x => x ≠ addr) = s1.queuedAddrs.erase addr := by
            rw [herase]
            congr 1
            ext y
            simp [bne, beq_eq_decide]
          rw [hfil, List.length_erase]
          split <;> omega
        rw [length_queuedAddrs, hcap1] at hle
        omega

end PeerQueues

end Risuko
