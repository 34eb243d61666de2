import Risuko.Dht.ExternalIp

/-!
# The tally of an election

`Counted` is the tally of one family: `V` says which networks voted for an address. Every operation keeps it. `Supported` adds the gateways and the
elected address, where `G` says which addresses gateways reported.
-/

namespace Risuko

namespace ExternalIp

variable {V V' : IpAddr → Network → Prop} {G G' : IpAddr → Prop}

/-! ## The candidates -/

/-- The candidates and their networks are few, no network is there twice, and each voted for the candidate that has it. -/
structure Counted (V : IpAddr → Network → Prop) (candidates : List Candidate) : Prop where
  few : candidates.length ≤ maxCandidates
  voted : ∀ c ∈ candidates, c.networks ≠ [] ∧ c.networks.length ≤ maxVoterNetworks
  once : (candidates.flatMap (·.networks)).Nodup
  votes : ∀ c ∈ candidates, ∀ n ∈ c.networks, V c.addr n

namespace Counted

variable {candidates : List Candidate}
variable {cs : List Candidate} {c : Candidate}

theorem nil : Counted V [] := ⟨Nat.zero_le _, by simp, by simp, by simp⟩

theorem mono (h : Counted V candidates) (hV : ∀ addr n, V addr n → V' addr n) : Counted V' candidates :=
  { h with votes := fun c hc n hn => hV _ _ (h.votes c hc n hn) }

/-- Candidates that keep a part of their networks, where those without any go. -/
theorem thin (h : Counted V candidates) {g : Candidate → Candidate} {p : Candidate → Bool}
    (hg : ∀ c, (g c).addr = c.addr ∧ (g c).networks.Sublist c.networks) (hp : ∀ c ∈ candidates, p (g c) = true → (g c).networks ≠ []) :
    Counted V ((candidates.map g).filter p) where
  few := (List.length_filter_le _ _).trans (by rw [List.length_map]; exact h.few)
  voted := by
    intro d hd
    obtain ⟨hmem, hpd⟩ := List.mem_filter.mp hd
    obtain ⟨c, hc, rfl⟩ := List.mem_map.mp hmem
    exact ⟨hp c hc hpd, ((hg c).2.length_le).trans (h.voted c hc).2⟩
  once := by
    have hmap : ((candidates.map g).flatMap (·.networks)).Sublist (candidates.flatMap (·.networks)) := by
      rw [List.flatMap_map]
      exact List.Sublist.flatMap_right candidates fun c _ => (hg c).2
    exact h.once.sublist ((List.filter_sublist.flatMap _).trans hmap)
  votes := by
    intro d hd n hn
    obtain ⟨c, hc, rfl⟩ := List.mem_map.mp (List.mem_filter.mp hd).1
    rw [(hg c).1]
    exact h.votes c hc n ((hg c).2.subset hn)

theorem filter (h : Counted V candidates) (p : Candidate → Bool) : Counted V (candidates.filter p) := by
  have := h.thin (g := id) (p := p) (fun c => ⟨rfl, List.Sublist.refl _⟩) (fun c hc _ => (h.voted c hc).1)
  rwa [List.map_id] at this

/-- Candidates with the same addresses and networks in another order. -/
theorem perm {ds : List Candidate} (h : Counted V cs) (hperm : cs.Perm ds) : Counted V ds where
  few := hperm.length_eq ▸ h.few
  voted := fun c hc => h.voted c (hperm.mem_iff.mpr hc)
  once := (hperm.flatMap_right _).nodup_iff.mp h.once
  votes := fun c hc => h.votes c (hperm.mem_iff.mpr hc)

theorem tail (h : Counted V (c :: cs)) : Counted V cs where
  few := (Nat.le_succ _).trans h.few
  voted := fun d hd => h.voted d (List.mem_cons_of_mem c hd)
  once := ((List.nodup_append.mp h.once).2).1
  votes := fun d hd => h.votes d (List.mem_cons_of_mem c hd)

/-- Another number for the last change. -/
theorem touch (h : Counted V (c :: cs)) (clock : Nat) : Counted V ({ c with touched := clock } :: cs) where
  few := h.few
  voted := by
    rw [List.forall_mem_cons]
    exact List.forall_mem_cons.mp h.voted
  once := h.once
  votes := by
    rw [List.forall_mem_cons]
    exact List.forall_mem_cons.mp h.votes

/-- A network that no candidate has is counted for one of them, or for a new one. -/
theorem add {network : Network} (h : Counted V cs) (hfew : cs.length < maxCandidates)
    (hlen : c.networks.length ≤ maxVoterNetworks) (honce : (c.networks ++ cs.flatMap (·.networks)).Nodup) (hvotes : ∀ n ∈ c.networks, V c.addr n)
    (hnew : ∀ d ∈ c :: cs, network ∉ d.networks) (hV : V c.addr network) (clock : Nat) : Counted V (Candidate.add c network clock :: cs) := by
  obtain ⟨kept, hkept, hlen, hnetworks⟩ : ∃ kept, kept.Sublist c.networks ∧ kept.length < maxVoterNetworks
      ∧ (Candidate.add c network clock).networks = kept ++ [network] := by
    refine ⟨_, ?_, ?_, rfl⟩
    · split
      · exact List.drop_sublist 1 _
      · exact List.Sublist.refl _
    · split
      · rw [List.length_drop]
        have : 0 < maxVoterNetworks := by decide
        omega
      · omega
  obtain ⟨hnot, hnots⟩ := List.forall_mem_cons.mp hnew
  have hnot' : network ∉ cs.flatMap (·.networks) := fun hmem =>
    have ⟨e, he, hn⟩ := List.mem_flatMap.mp hmem
    hnots e he hn
  refine ⟨hfew, ?_, ?_, ?_⟩
  · refine List.forall_mem_cons.mpr ⟨?_, h.voted⟩
    rw [hnetworks]
    exact ⟨by simp, by rw [List.length_append, List.length_singleton]; omega⟩
  · rw [List.flatMap_cons, hnetworks, List.append_assoc, List.singleton_append]
    refine List.perm_middle.nodup_iff.mpr (List.nodup_cons.mpr ⟨?_, honce.sublist (hkept.append (List.Sublist.refl _))⟩)
    rw [List.mem_append, not_or]
    exact ⟨fun hmem => hnot (hkept.subset hmem), hnot'⟩
  · refine List.forall_mem_cons.mpr ⟨fun n hn => ?_, h.votes⟩
    rw [hnetworks, List.mem_append, List.mem_singleton] at hn
    rcases hn with hn | rfl
    · exact hvotes n (hkept.subset hn)
    · exact hV

end Counted

/-- Changing one element, up to the order. -/
theorem modify_perm {α : Type*} {L : List α} {i : Nat} {x : α} (h : L[i]? = some x) (f : α → α) :
    (L.modify i f).Perm (f x :: L.eraseIdx i) := by
  obtain ⟨hlt, rfl⟩ := List.getElem?_eq_some_iff.mp h
  rw [List.modify_eq_take_cons_drop hlt, List.eraseIdx_eq_take_drop_succ]
  exact List.perm_middle

namespace Family

variable {f : Family}
variable {addr : IpAddr}

@[simp] theorem evictForNewcomer_elected : f.evictForNewcomer.2.elected = f.elected := by
  unfold evictForNewcomer
  split
  · split <;> rfl
  · rfl

@[simp] theorem evictForNewcomer_gateways : f.evictForNewcomer.2.gateways = f.gateways := by
  unfold evictForNewcomer
  split
  · split <;> rfl
  · rfl

/-- A candidate is put out to make room. -/
theorem evictForNewcomer_spec (h : Counted V f.candidates) :
    Counted V f.evictForNewcomer.2.candidates ∧ (∀ c ∈ f.evictForNewcomer.2.candidates, c ∈ f.candidates)
      ∧ (f.evictForNewcomer.1 = true → f.evictForNewcomer.2.candidates.length < maxCandidates) := by
  unfold evictForNewcomer
  split
  · rename_i candidate index hvictim
    split
    · have hmem : (candidate, index) ∈ f.candidates.zipIdx := List.argmin_mem (by exact hvictim)
      have hperm : f.candidates.Perm (candidate :: swapRemove f.candidates index) := swapRemove_perm (List.mem_zipIdx_iff_getElem?.mp hmem)
      have hlen := hperm.length_eq
      rw [List.length_cons] at hlen
      have hfew := h.few
      exact ⟨(h.perm hperm).tail, fun c hc => hperm.mem_iff.mpr (List.mem_cons_of_mem _ hc), fun _ => by dsimp only; omega⟩
    · exact ⟨h, fun c hc => hc, fun hroom => by cases hroom⟩
  · exact ⟨h, fun c hc => hc, fun hroom => by cases hroom⟩

theorem cast_elected (addr : IpAddr) (network : Network) : (f.cast addr network).2.elected = f.elected := by
  unfold cast
  dsimp only
  split
  · rfl
  split
  · rfl
  · split <;> split <;> simp

theorem cast_gateways (addr : IpAddr) (network : Network) : (f.cast addr network).2.gateways = f.gateways := by
  unfold cast
  dsimp only
  split
  · rfl
  split
  · rfl
  · split <;> split <;> simp

/-- A vote is counted once: no other candidate keeps the network. -/
theorem cast_candidates (h : Counted V f.candidates) {network : Network} (hV : V addr network) :
    Counted V (f.cast addr network).2.candidates := by
  unfold cast
  dsimp only
  split
  · rename_i i hi
    obtain ⟨hlt, -⟩ := List.findIdx?_eq_some_iff_getElem.mp hi
    have hget := List.getElem?_eq_getElem hlt
    exact ((h.perm (cons_eraseIdx_perm hget).symm).touch _).perm (modify_perm hget fun candidate => { candidate with touched := f.clock + 1 }).symm
  · rename_i hnone
    rw [List.findIdx?_eq_none_iff] at hnone
    generalize hg : (fun candidate : Candidate =>
      if candidate.addr ≠ addr then { candidate with networks := candidate.networks.filter (· ≠ network) } else candidate) = g
    generalize hp : (fun candidate : Candidate => candidate.addr = addr || !candidate.networks.isEmpty) = p
    have hsub : ∀ c, (g c).addr = c.addr ∧ (g c).networks.Sublist c.networks := by
      subst hg
      intro c
      dsimp only
      split
      · exact ⟨rfl, List.filter_sublist⟩
      · exact ⟨rfl, List.Sublist.refl _⟩
    have hnew : ∀ c ∈ f.candidates, network ∉ (g c).networks := by
      subst hg
      intro c hc
      dsimp only
      split
      · simp
      · rename_i haddr
        have := hnone c hc
        simpa [not_not.mp haddr] using this
    have hkeep : ∀ c ∈ f.candidates, p (g c) = true → (g c).networks ≠ [] := by
      subst hp
      intro c hc hpc
      by_cases haddr : c.addr = addr
      · subst hg
        simpa [haddr] using (h.voted c hc).1
      · simpa [(hsub c).1, haddr] using hpc
    have hthin := h.thin hsub hkeep
    have hnew' : ∀ c ∈ (f.candidates.map g).filter p, network ∉ c.networks := by
      intro c hc
      obtain ⟨d, hd, rfl⟩ := List.mem_map.mp (List.mem_filter.mp hc).1
      exact hnew d hd
    generalize (f.candidates.map g).filter p = cs at hthin hnew'
    split
    · rename_i i hi
      obtain ⟨hlt, haddr, -⟩ := List.findIdx?_eq_some_iff_getElem.mp hi
      have hget := List.getElem?_eq_getElem hlt
      generalize cs[i] = c at hget haddr
      have hperm := cons_eraseIdx_perm hget
      have hcons := hthin.perm hperm.symm
      have haddr : c.addr = addr := of_decide_eq_true haddr
      refine Counted.perm (hcons.tail.add ?_ ?_ ?_ ?_ ?_ ?_ _) (modify_perm hget fun candidate => candidate.add network (f.clock + 1)).symm
      · exact hcons.few
      · exact (hcons.voted c List.mem_cons_self).2
      · exact hcons.once
      · exact hcons.votes c List.mem_cons_self
      · exact fun d hd => hnew' d (hperm.mem_iff.mp hd)
      · rwa [haddr]
    · have hpush : ∀ cs, Counted V cs → (∀ c ∈ cs, network ∉ c.networks) → cs.length < maxCandidates → ∀ clock,
          Counted V (cs ++ [Candidate.add ⟨addr, [], clock⟩ network clock]) := by
        intro cs hcs hnew hfew clock
        exact (hcs.add (c := ⟨addr, [], clock⟩) hfew (Nat.zero_le _) hcs.once (by simp)
          (List.forall_mem_cons.mpr ⟨by simp, hnew⟩) hV clock).perm (List.perm_append_singleton _ _).symm
      split
      · have hevict := evictForNewcomer_spec (f := { f with candidates := cs, clock := f.clock + 1 }) hthin
        split
        · rename_i hroom
          exact hpush _ hevict.1 (fun c hc => hnew' c (hevict.2.1 c hc)) (hevict.2.2 hroom) _
        · exact hevict.1
      · exact hpush cs hthin hnew' (by omega) _

/-! ## The elected address -/

/-- A strength of three is what a gateway gives, or networks. -/
theorem strength_cases (h : minVoterNetworks ≤ f.strength addr) :
    f.backed addr = true ∨ ∃ c ∈ f.candidates, c.addr = addr ∧ minVoterNetworks ≤ c.networks.length := by
  unfold strength at h
  cases hfind : f.candidates.find? fun candidate => candidate.addr = addr with
  | none =>
    rw [hfind] at h
    by_cases hbacked : f.backed addr = true
    · exact .inl hbacked
    · rw [if_neg hbacked] at h
      cases h
  | some c =>
    rw [hfind] at h
    by_cases hbacked : f.backed addr = true
    · exact .inl hbacked
    · rw [if_neg hbacked] at h
      exact .inr ⟨c, List.mem_of_find?_eq_some hfind, by simpa using List.find?_some hfind, h⟩

/-- The address that an election finds has the strength that it says, and at least three. -/
theorem best_spec {addrs : List IpAddr} {top : Nat} (h : f.best addrs = some (addr, top)) :
    top = f.strength addr ∧ minVoterNetworks ≤ top := by
  suffices hfold : ∀ (addrs : List IpAddr) (best : Option (IpAddr × Nat)),
      (∀ addr top, best = some (addr, top) → top = f.strength addr ∧ minVoterNetworks ≤ top) →
      ∀ addr top, addrs.foldl (fun best addr =>
        let strength := f.strength addr
        if strength < minVoterNetworks then best
        else if best.all fun kept => strength > kept.2 then some (addr, strength)
        else best) best = some (addr, top) → top = f.strength addr ∧ minVoterNetworks ≤ top by
    exact hfold addrs none (fun _ _ hnone => by cases hnone) addr top h
  intro addrs
  induction addrs with
  | nil => exact fun best hbest => hbest
  | cons next addrs ih =>
    intro best hbest
    refine ih _ ?_
    dsimp only
    split
    · exact hbest
    split
    · rintro addr top ⟨⟩
      exact ⟨rfl, by omega⟩
    · exact hbest

/-- What an election and a report of a gateway do to the elected address: `X` takes the place of an address that is not stronger. -/
structure Wins (f : Family) (before : Option IpAddr) (X : IpAddr) : Prop where
  elected : f.elected = some X
  stronger : ∀ P, before = some P → f.strength P ≤ f.strength X

@[simp] theorem reelect_candidates : f.reelect.candidates = f.candidates := by
  unfold reelect
  repeat' split
  all_goals rfl

@[simp] theorem reelect_gateways : f.reelect.gateways = f.gateways := by
  unfold reelect
  repeat' split
  all_goals rfl

@[simp] theorem reelect_backed (addr : IpAddr) : f.reelect.backed addr = f.backed addr := by
  unfold backed
  rw [reelect_gateways]

@[simp] theorem reelect_strength (addr : IpAddr) : f.reelect.strength addr = f.strength addr := by
  unfold strength
  rw [reelect_candidates, reelect_backed]

theorem reelect_cases : f.reelect.elected = f.elected ∨ ∃ X, f.reelect.Wins f.elected X ∧ minVoterNetworks ≤ f.strength X := by
  cases hbest : f.best (f.candidates.map (·.addr) ++ f.gateways.map (·.addr)) with
  | none => exact .inl (by rw [reelect, hbest])
  | some top =>
    obtain ⟨addr, strength⟩ := top
    obtain ⟨rfl, hmin⟩ := best_spec hbest
    by_cases hstay : ∃ current, f.elected = some current ∧ (current = addr ∨ f.strength addr ≤ f.strength current)
    · obtain ⟨current, hcurrent, hstay⟩ := hstay
      refine .inl ?_
      rw [reelect, hbest]
      dsimp only
      simp [hcurrent, hstay]
    · refine .inr ⟨addr, ⟨?_, fun P hP => ?_⟩, hmin⟩
      · rw [reelect, hbest]
        dsimp only
        cases hcurrent : f.elected with
        | none => rfl
        | some current =>
          have : ¬ (current = addr ∨ f.strength addr ≤ f.strength current) := fun h => hstay ⟨current, hcurrent, h⟩
          simp [this]
      · rw [reelect_strength, reelect_strength]
        exact Nat.le_of_not_le fun hle => hstay ⟨P, hP, .inr hle⟩

/-- What follows when a gateway said `previous` before. -/
theorem wins_of_all {g : Family} {before : Option IpAddr} (hg : g.elected = before)
    (hall : (g.elected.all fun current => current = addr || g.strength addr ≥ g.strength current) = true) :
    ({ g with elected := some addr } : Family).Wins before addr := by
  refine ⟨rfl, fun P hP => ?_⟩
  rw [hg, hP] at hall
  simp only [Option.all_some, Bool.or_eq_true, decide_eq_true_eq] at hall
  rcases hall with rfl | hall
  · exact le_rfl
  · exact hall

/-- The gateways after a report, the candidates without those for what the gateway said before, and the elected address. -/
theorem reportGateway_spec (addr : IpAddr) (id : Voter) (now : Nat) :
    (∀ g ∈ (f.reportGateway addr id now).gateways, g ∈ f.gateways ∨ g.addr = addr) ∧
      (∃ p, (f.reportGateway addr id now).candidates = f.candidates.filter p) ∧
      ((f.reportGateway addr id now).elected = f.elected ∨ (f.reportGateway addr id now).Wins f.elected addr) := by
  have hall : f.candidates = f.candidates.filter fun _ => true := (List.filter_true _).symm
  unfold reportGateway
  split
  rename_i previous f' hf'
  have hspec : (∀ g ∈ f'.gateways, g ∈ f.gateways ∨ g.addr = addr) ∧ f'.candidates = f.candidates ∧ f'.elected = f.elected := by
    split at hf'
    · cases hf'
      refine ⟨fun g hg => ?_, rfl, rfl⟩
      rcases List.mem_or_eq_of_mem_set hg with hg | rfl
      · exact .inl hg
      · exact .inr rfl
    · cases hf'
      refine ⟨fun g hg => ?_, rfl, rfl⟩
      rcases List.mem_append.mp hg with hg | hg
      · split at hg
        · exact .inl (List.mem_of_mem_drop hg)
        · exact .inl hg
      · exact .inr (by rw [List.mem_singleton.mp hg])
  obtain ⟨hgateways, hcandidates, helected⟩ := hspec
  split
  · exact ⟨hgateways, ⟨_, hcandidates.trans hall⟩, .inl helected⟩
  · cases previous with
    | none =>
      dsimp only
      split
      · rename_i hwins
        exact ⟨hgateways, ⟨_, hcandidates.trans hall⟩, .inr (wins_of_all helected hwins)⟩
      · exact ⟨hgateways, ⟨_, hcandidates.trans hall⟩, .inl helected⟩
    | some stale =>
      dsimp only
      split
      · rename_i hwins
        have hwins := wins_of_all (g := { f' with candidates := f'.candidates.filter fun candidate => candidate.addr ≠ stale }) helected hwins
        exact ⟨hgateways, ⟨_, congrArg _ hcandidates⟩, .inr hwins⟩
      · exact ⟨hgateways, ⟨_, congrArg _ hcandidates⟩, .inl helected⟩

/-! ## What networks and gateways said -/

/-- A gateway said that it is `addr`, or three networks did. -/
def Vouched (V : IpAddr → Network → Prop) (G : IpAddr → Prop) (addr : IpAddr) : Prop :=
  G addr ∨ ∃ networks : List Network, networks.Nodup ∧ minVoterNetworks ≤ networks.length ∧ ∀ n ∈ networks, V addr n

theorem Vouched.mono (h : Vouched V G addr) (hV : ∀ addr n, V addr n → V' addr n) (hG : ∀ addr, G addr → G' addr) :
    Vouched V' G' addr := by
  rcases h with h | ⟨networks, hnodup, hlen, h⟩
  · exact .inl (hG _ h)
  · exact .inr ⟨networks, hnodup, hlen, fun n hn => hV _ _ (h n hn)⟩

structure Supported (V : IpAddr → Network → Prop) (G : IpAddr → Prop) (f : Family) : Prop where
  counted : Counted V f.candidates
  reported : ∀ g ∈ f.gateways, G g.addr
  elected : ∀ X, f.elected = some X → Vouched V G X

namespace Supported

variable {addr : IpAddr}

theorem default : Supported V G .default := ⟨.nil, by simp [Family.default], by simp [Family.default]⟩

theorem mono (h : Supported V G f) (hV : ∀ addr n, V addr n → V' addr n) (hG : ∀ addr, G addr → G' addr) : Supported V' G' f :=
  ⟨h.counted.mono hV, fun g hg => hG _ (h.reported g hg), fun X hX => (h.elected X hX).mono hV hG⟩

theorem cast (h : Supported V G f) {network : Network} (hV : V addr network) : Supported V G (f.cast addr network).2 where
  counted := cast_candidates h.counted hV
  reported := by
    rw [cast_gateways]
    exact h.reported
  elected := by
    rw [cast_elected]
    exact h.elected

theorem reportGateway (h : Supported V G f) (hG : G addr) (id : Voter) (now : Nat) :
    Supported V G (f.reportGateway addr id now) := by
  obtain ⟨hgateways, ⟨p, hcandidates⟩, helected⟩ := reportGateway_spec (f := f) addr id now
  refine ⟨by rw [hcandidates]; exact h.counted.filter p, fun g hg => ?_, fun X hX => ?_⟩
  · rcases hgateways g hg with hg | hg
    · exact h.reported g hg
    · rwa [hg]
  · rcases helected with helected | hwins
    · exact h.elected X (helected ▸ hX)
    · obtain rfl : addr = X := Option.some.inj (hwins.elected.symm.trans hX)
      exact .inl hG

/-- An address with the strength to be elected. -/
theorem vouched (h : Supported V G f) (hmin : minVoterNetworks ≤ f.strength addr) : Vouched V G addr := by
  rcases strength_cases hmin with hbacked | ⟨c, hc, rfl, hlen⟩
  · obtain ⟨g, hg, hbacked⟩ := List.any_eq_true.mp hbacked
    rw [Bool.and_eq_true, decide_eq_true_eq] at hbacked
    exact .inl (hbacked.1 ▸ h.reported g hg)
  · exact .inr ⟨c.networks, (List.nodup_flatMap.mp h.counted.once).1 c hc, hlen, h.counted.votes c hc⟩

theorem reelect (h : Supported V G f) : Supported V G f.reelect := by
  refine ⟨by rw [reelect_candidates]; exact h.counted, by rw [reelect_gateways]; exact h.reported, fun X hX => ?_⟩
  rcases reelect_cases (f := f) with helected | ⟨Y, hwins, hmin⟩
  · exact h.elected X (helected ▸ hX)
  · obtain rfl : Y = X := Option.some.inj (hwins.elected.symm.trans hX)
    exact h.vouched hmin

theorem halve (h : Supported V G f) (now : Nat) : Supported V G (f.halve now) where
  counted := by
    refine h.counted.thin (fun c => ⟨rfl, List.drop_sublist _ _⟩) fun c _ hkeep hnil => ?_
    rw [hnil] at hkeep
    cases hkeep
  reported := by
    intro g hg
    obtain ⟨g', hg', rfl⟩ := List.mem_map.mp hg
    split <;> exact h.reported g' hg'
  elected := h.elected

end Supported

end Family

/-! ## The two families -/

namespace State

variable {s : State}

@[simp] theorem family_setFamily (v6 : Bool) (f : Family) : (s.setFamily v6 f).family v6 = f := by cases v6 <;> rfl

theorem family_setFamily_of_ne {v6 b : Bool} (h : b ≠ v6) (f : Family) : (s.setFamily v6 f).family b = s.family b := by
  cases v6 <;> cases b <;> first | rfl | exact absurd rfl h

/-- What a halving keeps, the passing of time keeps. -/
theorem age_family {P : Family → Prop} {b : Bool} (hhalve : ∀ f now, P f → P (f.halve now)) (now : Nat) (h : P (s.family b)) :
    P ((s.age now).2.family b) := by
  have hloop : ∀ left (s : State), P (s.family b) → P ((ageLoop now left s).2.family b) := by
    intro left
    induction left with
    | zero => exact fun s hs => hs
    | succ left ih =>
      intro s hs
      rw [ageLoop]
      split
      · refine ih _ ?_
        cases b with
        | false => exact hhalve _ now hs
        | true => exact hhalve _ now hs
      · exact hs
  exact hloop _ s h

theorem age_elected (now : Nat) (b : Bool) : ((s.age now).2.family b).elected = (s.family b).elected :=
  age_family (P := fun f => f.elected = (s.family b).elected) (fun _ _ h => h) now rfl

/-- Nothing happened when no time passed. -/
theorem age_of_not_aged {now : Nat} (h : (s.age now).1 = false) : (s.age now).2 = s := by
  unfold age maxAgeSteps ageLoop at *
  split at h
  · cases h
  · rename_i hlt
    rw [if_neg hlt]

end State

end ExternalIp

end Risuko
