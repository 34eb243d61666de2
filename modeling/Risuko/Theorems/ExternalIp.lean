import Risuko.Lemmas.ExternalIp

/-!
# Our external address

What is elected is vouched for: `voteAt_cases` tells what a vote does apart, and `external_address` is about every sequence of votes.
-/

namespace Risuko

namespace ExternalIp

variable {isPublicAddress : IpAddr → Bool}

/-- The address that a vote is for. -/
def Vote.address (v : Vote) : IpAddr := v.observed.toCanonical

/-- Votes for an address of one family count for a network. -/
def Voted (isPublicAddress : IpAddr → Bool) (votes : List Vote) (b : Bool) (addr : IpAddr) (network : Network) : Prop :=
  addr.isIpv6 = b ∧ ∃ v ∈ votes, v.counts isPublicAddress = some (some network) ∧ v.address = addr

/-- A gateway reported an address of one family. -/
def Reported (votes : List Vote) (b : Bool) (addr : IpAddr) : Prop :=
  addr.isIpv6 = b ∧ ∃ v ∈ votes, v.source = .gateway ∧ v.address = addr

/-- A vote of a voter behind a proxy or without a public address, but for the gateways, or a vote for an address that is not public. -/
def Vote.Refused (isPublicAddress : IpAddr → Bool) (v : Vote) : Prop :=
  (v.source ≠ .gateway ∧ v.route = .proxied) ∨ isPublicAddress v.address = false
    ∨ (v.source ≠ .gateway ∧ ∃ ip, v.voter = .ip ip ∧ isPublicAddress ip.toCanonical = false)

/-- Only the vote of a gateway counts without a network. -/
theorem Vote.counts_none {v : Vote} : v.counts isPublicAddress = some none ↔ v.source = .gateway := by
  unfold Vote.counts
  split
  · rename_i hsource
    exact iff_of_true rfl hsource
  · rename_i hsource
    refine iff_of_false ?_ hsource
    split
    · exact fun h => by cases h
    · cases v.voter.network isPublicAddress <;> exact fun h => by cases h

/-- A vote that counts by its network comes from no gateway. -/
theorem Vote.counts_some {v : Vote} {network : Network} (h : v.counts isPublicAddress = some (some network)) :
    v.source ≠ .gateway ∧ v.voter.network isPublicAddress = some network := by
  unfold Vote.counts at h
  split at h
  · cases h
  rename_i hsource
  split at h
  · cases h
  · refine ⟨hsource, ?_⟩
    cases hnetwork : v.voter.network isPublicAddress with
    | none => rw [hnetwork] at h; cases h
    | some n =>
      rw [hnetwork] at h
      cases h
      rfl

/-- What a vote does to the family of its address once time has passed. -/
inductive Applied (isPublicAddress : IpAddr → Bool) (v : Vote) (f : Family) : Family → Bool → Prop
  | cast (network : Network) : v.counts isPublicAddress = some (some network) →
      Applied isPublicAddress v f (f.cast v.address network).2 (f.cast v.address network).1
  | reported : v.source = .gateway → Applied isPublicAddress v f (f.reportGateway v.address v.voter v.now) true

variable (isPublicAddress) in
/-- A vote is not looked at, changes the tally only, or leads to an election. -/
theorem voteAt_cases (e : ExternalIp) (v : Vote) :
    voteAt isPublicAddress e v = e ∨ ∃ f changed, Applied isPublicAddress v ((e.state.age v.now).2.family v.address.isIpv6) f changed
      ∧ ((changed = false ∧ (e.state.age v.now).1 = false ∧
            voteAt isPublicAddress e v = { e with state := (e.state.age v.now).2.setFamily v.address.isIpv6 f }) ∨
          (voteAt isPublicAddress e v).state = (e.state.age v.now).2.setFamily v.address.isIpv6 f.reelect
            ∧ (voteAt isPublicAddress e v).published = (voteAt isPublicAddress e v).state.snapshot) := by
  unfold voteAt
  dsimp only
  split
  · exact .inl rfl
  · cases hcounts : v.counts isPublicAddress with
    | none => exact .inl rfl
    | some network =>
      refine .inr ?_
      cases network with
      | none =>
        exact ⟨_, _, .reported (Vote.counts_none.mp hcounts), .inr ⟨rfl, rfl⟩⟩
      | some network =>
        refine ⟨_, _, .cast network hcounts, ?_⟩
        dsimp only
        split
        · rename_i hquiet
          rw [Bool.and_eq_true, Bool.not_eq_true', Bool.not_eq_true'] at hquiet
          exact .inl ⟨hquiet.1, hquiet.2, rfl⟩
        · exact .inr ⟨rfl, rfl⟩

/-! ## One vote -/

/-- The gateways and the networks that are counted spoke for the addresses of their family. -/
structure Good (isPublicAddress : IpAddr → Bool) (votes : List Vote) (e : ExternalIp) : Prop where
  supported : ∀ b, Family.Supported (Voted isPublicAddress votes b) (Reported votes b) (e.state.family b)
  published : e.published = e.state.snapshot

/-- An address is vouched for in its own family only. -/
theorem Vouched.family {votes : List Vote} {b : Bool} {X : IpAddr}
    (h : Family.Vouched (Voted isPublicAddress votes b) (Reported votes b) X) : X.isIpv6 = b := by
  rcases h with ⟨hfamily, -⟩ | ⟨networks, -, hlen, hvoted⟩
  · exact hfamily
  · cases networks with
    | nil => cases hlen
    | cons n networks => exact (hvoted n List.mem_cons_self).1

/-- What is published for a family is the address elected in it. -/
theorem Good.get {votes : List Vote} {e : ExternalIp} (h : Good isPublicAddress votes e) (b : Bool) :
    e.published.get b = (e.state.family b).elected := by
  rw [h.published]
  have hfamily := fun X hX => Vouched.family ((h.supported b).elected X hX)
  cases b with
  | false =>
    change e.state.snapshot.v4.map IpAddr.v4 = e.state.v4.elected
    change ∀ X, e.state.v4.elected = some X → X.isIpv6 = false at hfamily
    unfold State.snapshot
    generalize e.state.v4.elected = elected at hfamily ⊢
    rcases elected with _ | ⟨_ | ip⟩
    · rfl
    · rfl
    · cases hfamily _ rfl
  | true =>
    change e.state.snapshot.v6.map IpAddr.v6 = e.state.v6.elected
    change ∀ X, e.state.v6.elected = some X → X.isIpv6 = true at hfamily
    unfold State.snapshot
    generalize e.state.v6.elected = elected at hfamily ⊢
    rcases elected with _ | ⟨ip | _⟩
    · rfl
    · cases hfamily _ rfl
    · rfl

/-- A vote leaves what is elected, or elects the address that it is for. -/
theorem Applied.elected {v : Vote} {f f' : Family} {changed : Bool} (h : Applied isPublicAddress v f f' changed) :
    f'.elected = f.elected ∨ (v.source = .gateway ∧ f'.Wins f.elected v.address) := by
  cases h with
  | cast network _ => exact .inl (Family.cast_elected _ _)
  | reported hsource =>
    rcases (Family.reportGateway_spec (f := f) v.address v.voter v.now).2.2 with h | h
    · exact .inl h
    · exact .inr ⟨hsource, h⟩

/-- What is counted is still supported after a vote. -/
theorem Applied.supported {v : Vote} {f f' : Family} {changed : Bool} {votes : List Vote}
    (happlied : Applied isPublicAddress v f f' changed)
    (h : Family.Supported (Voted isPublicAddress votes v.address.isIpv6) (Reported votes v.address.isIpv6) f) (hv : v ∈ votes) :
    Family.Supported (Voted isPublicAddress votes v.address.isIpv6) (Reported votes v.address.isIpv6) f' := by
  cases happlied with
  | cast network hcounts => exact h.cast ⟨rfl, v, hv, hcounts, rfl⟩
  | reported hsource => exact h.reportGateway ⟨rfl, v, hv, hsource, rfl⟩ _ _

/-- An election after what a vote says: what wins has taken the place of what was elected before. -/
theorem Applied.reelect {v : Vote} {f f' : Family} {changed : Bool} (h : Applied isPublicAddress v f f' changed) :
    f'.reelect.elected = f.elected ∨ ∃ X, f'.reelect.Wins f.elected X
      ∧ ((v.source = .gateway ∧ v.address = X) ∨ minVoterNetworks ≤ f'.reelect.strength X) := by
  rcases f'.reelect_cases with hstay | ⟨X, hwins, hmin⟩
  · rcases h.elected with hsame | ⟨hsource, hreport⟩
    · exact .inl (hstay.trans hsame)
    · refine .inr ⟨v.address, ⟨hstay.trans hreport.elected, fun P hP => ?_⟩, .inl ⟨hsource, rfl⟩⟩
      rw [Family.reelect_strength, Family.reelect_strength]
      exact hreport.stronger P hP
  · refine .inr ⟨X, ⟨hwins.elected, fun P hP => ?_⟩, .inr (by rwa [Family.reelect_strength])⟩
    rcases h.elected with hsame | ⟨-, hreport⟩
    · exact hwins.stronger P (hsame.trans hP)
    · calc f'.reelect.strength P = f'.strength P := Family.reelect_strength P
        _ ≤ f'.strength v.address := hreport.stronger P hP
        _ = f'.reelect.strength v.address := (Family.reelect_strength _).symm
        _ ≤ f'.reelect.strength X := hwins.stronger _ hreport.elected

variable (isPublicAddress) in
/-- The elected address of either family after a vote. -/
theorem voteAt_elected (e : ExternalIp) (v : Vote) (b : Bool) :
    ((voteAt isPublicAddress e v).state.family b).elected = (e.state.family b).elected ∨
      ∃ X, ((voteAt isPublicAddress e v).state.family b).Wins (e.state.family b).elected X
        ∧ ((v.source = .gateway ∧ v.address = X) ∨ minVoterNetworks ≤ ((voteAt isPublicAddress e v).state.family b).strength X) := by
  have hage := State.age_elected (s := e.state) v.now b
  rcases voteAt_cases isPublicAddress e v with hsame | ⟨f, changed, happlied, ⟨hchanged, -, hquiet⟩ | ⟨hstate, -⟩⟩
  · exact .inl (by rw [hsame])
  · refine .inl ?_
    rw [hquiet]
    dsimp only
    by_cases hb : b = v.address.isIpv6
    · subst hb
      rw [State.family_setFamily]
      cases happlied with
      | cast network _ => rw [Family.cast_elected, hage]
      | reported _ => cases hchanged
    · rw [State.family_setFamily_of_ne hb, hage]
  · rw [hstate]
    by_cases hb : b = v.address.isIpv6
    · subst hb
      rw [State.family_setFamily, ← hage]
      exact happlied.reelect
    · rw [State.family_setFamily_of_ne hb, hage]
      exact .inl rfl

/-- The snapshot shows what is elected and nothing else. -/
theorem snapshot_congr {s s' : State} (h : ∀ b, (s.family b).elected = (s'.family b).elected) : s.snapshot = s'.snapshot := by
  have h4 : s.v4.elected = s'.v4.elected := h false
  have h6 : s.v6.elected = s'.v6.elected := h true
  unfold State.snapshot
  rw [h4, h6]

theorem Good.startingAt (now : Nat) : Good isPublicAddress [] (startingAt now) where
  supported := fun b => by cases b <;> exact Family.Supported.default
  published := rfl

/-- A vote keeps what is known of every vote before it, and adds what it says itself. -/
theorem Good.voteAt {votes : List Vote} {e : ExternalIp} (h : Good isPublicAddress votes e) (v : Vote) :
    Good isPublicAddress (votes ++ [v]) (voteAt isPublicAddress e v) := by
  have hv : v ∈ votes ++ [v] := List.mem_append_right _ (List.mem_singleton_self v)
  have hmono : ∀ b, Family.Supported (Voted isPublicAddress (votes ++ [v]) b) (Reported (votes ++ [v]) b) (e.state.family b) := by
    intro b
    refine (h.supported b).mono ?_ ?_
    · rintro addr n ⟨hfamily, w, hw, hcounts⟩
      exact ⟨hfamily, w, List.mem_append_left _ hw, hcounts⟩
    · rintro addr ⟨hfamily, w, hw, hsource⟩
      exact ⟨hfamily, w, List.mem_append_left _ hw, hsource⟩
  have haged := fun b => State.age_family (b := b) (P := Family.Supported (Voted isPublicAddress (votes ++ [v]) b) (Reported (votes ++ [v]) b))
    (fun f now hf => hf.halve now) v.now (hmono b)
  have hset : ∀ f, Family.Supported (Voted isPublicAddress (votes ++ [v]) v.address.isIpv6) (Reported (votes ++ [v]) v.address.isIpv6) f → ∀ b,
      Family.Supported (Voted isPublicAddress (votes ++ [v]) b) (Reported (votes ++ [v]) b)
        (((e.state.age v.now).2.setFamily v.address.isIpv6 f).family b) := by
    intro f hf b
    by_cases hb : b = v.address.isIpv6
    · subst hb
      rwa [State.family_setFamily]
    · rw [State.family_setFamily_of_ne hb]
      exact haged b
  rcases voteAt_cases isPublicAddress e v with hsame | ⟨f, changed, happlied, hcases⟩
  · rw [hsame]
    exact ⟨hmono, h.published⟩
  · have hf := happlied.supported (haged _) hv
    rcases hcases with ⟨hchanged, hnot, hquiet⟩ | ⟨hstate, hpublished⟩
    · refine ⟨by rw [hquiet]; exact hset f hf, ?_⟩
      rw [hquiet]
      refine h.published.trans (snapshot_congr fun b => ?_)
      dsimp only
      rw [State.age_of_not_aged hnot] at happlied ⊢
      by_cases hb : b = v.address.isIpv6
      · subst hb
        rw [State.family_setFamily]
        cases happlied with
        | cast network _ => rw [Family.cast_elected]
        | reported _ => cases hchanged
      · rw [State.family_setFamily_of_ne hb]
    · exact ⟨by rw [hstate]; exact hset _ hf.reelect, hpublished⟩

/-- A refused vote is not looked at. -/
theorem voteAt_of_refused (e : ExternalIp) {v : Vote} (h : v.Refused isPublicAddress) : voteAt isPublicAddress e v = e := by
  unfold ExternalIp.voteAt
  dsimp only
  split
  · rfl
  · rename_i hpublic
    have hcounts : v.counts isPublicAddress = none := by
      unfold Vote.counts
      rcases h with ⟨hsource, hroute⟩ | haddress | ⟨hsource, ip, hvoter, hip⟩
      · rw [if_neg hsource, if_pos hroute]
      · rw [show v.observed.toCanonical = v.address from rfl, haddress] at hpublic
        exact absurd rfl hpublic
      · rw [if_neg hsource]
        split
        · rfl
        · rw [hvoter, Voter.network, hip]
          rfl
    rw [hcounts]

/-! ## Every sequence of votes -/

/-- After every sequence of votes what is counted is supported by them. -/
theorem Good.run (start : Nat) (votes : List Vote) : Good isPublicAddress votes (run isPublicAddress start votes) := by
  induction votes using List.reverseRecOn with
  | nil => exact .startingAt start
  | append_singleton votes v ih =>
    rw [ExternalIp.run, List.foldl_append]
    exact ih.voteAt v

/-- Whatever is voted: the candidates of each family and their networks are few, no network is counted twice, an address is published when a gateway
reports it or backs it or three networks are counted for it, and when it is as strong as what it replaces; two networks publish nothing without a
gateway, nothing is withdrawn, and refused votes change nothing. -/
theorem external_address (isPublicAddress : IpAddr → Bool) (start : Nat) (votes : List Vote) :
    let e := run isPublicAddress start votes
    (∀ b, (e.state.family b).candidates.length ≤ maxCandidates
      ∧ (∀ c ∈ (e.state.family b).candidates, 1 ≤ c.networks.length ∧ c.networks.length ≤ maxVoterNetworks ∧ c.networks.Nodup)
      ∧ (e.state.family b).candidates.Pairwise fun c d => List.Disjoint c.networks d.networks)
    ∧ (∀ v b X, let e' := voteAt isPublicAddress e v
        e'.published.get b = some X → e.published.get b ≠ some X →
          ((v.source = .gateway ∧ v.address = X) ∨ (e'.state.family b).backed X = true
            ∨ ∃ c ∈ (e'.state.family b).candidates, c.addr = X ∧ minVoterNetworks ≤ c.networks.length)
          ∧ ∀ P, e.published.get b = some P → (e'.state.family b).strength P ≤ (e'.state.family b).strength X)
    ∧ (∀ b X n m, e.published.get b = some X →
        (∀ v ∈ votes, v.source ≠ .gateway → ∀ k, v.voter.network isPublicAddress = some k → k = n ∨ k = m) →
          ∃ v ∈ votes, v.source = .gateway ∧ v.address = X)
    ∧ (∀ v b, (e.published.get b).isSome → ((voteAt isPublicAddress e v).published.get b).isSome)
    ∧ ∀ v, v.Refused isPublicAddress → voteAt isPublicAddress e v = e := by
  intro e
  have h : Good isPublicAddress votes e := .run start votes
  refine ⟨fun b => ?_, ?_, fun b X n m hX hvotes => ?_, fun v b hsome => ?_, fun v hv => voteAt_of_refused e hv⟩
  · obtain ⟨hfew, hvoted, honce, -⟩ := (h.supported b).counted
    obtain ⟨hnodup, hdisjoint⟩ := List.nodup_flatMap.mp honce
    exact ⟨hfew, fun c hc => ⟨List.length_pos_iff.mpr (hvoted c hc).1, (hvoted c hc).2, hnodup c hc⟩, hdisjoint⟩
  · intro v b X e' hX hne
    rw [(h.voteAt v).get] at hX
    rw [h.get] at hne
    rcases voteAt_elected isPublicAddress e v b with hsame | ⟨Y, hwins, hreason⟩
    · exact absurd (hsame.symm.trans hX) hne
    · obtain rfl : Y = X := Option.some.inj (hwins.elected.symm.trans hX)
      refine ⟨?_, fun P hP => hwins.stronger P (by rwa [h.get] at hP)⟩
      rcases hreason with hreport | hmin
      · exact .inl hreport
      · exact .inr (Family.strength_cases hmin)
  · rw [h.get] at hX
    rcases (h.supported b).elected X hX with ⟨-, hreported⟩ | ⟨networks, hnodup, hlen, hvoted⟩
    · exact hreported
    · -- three different networks are not among two
      have hsub : networks ⊆ [n, m] := by
        intro k hk
        obtain ⟨-, v, hv, hcounts, -⟩ := hvoted k hk
        obtain ⟨hsource, hnetwork⟩ := Vote.counts_some hcounts
        rw [List.mem_cons, List.mem_singleton]
        exact hvotes v hv hsource k hnetwork
      have htwo : networks.length ≤ 2 := (hnodup.subperm hsub).length_le
      exact absurd (hlen.trans htwo) (by decide)
  · rw [(h.voteAt v).get]
    rw [h.get] at hsome
    rcases voteAt_elected isPublicAddress e v b with hsame | ⟨Y, hwins, -⟩
    · rwa [hsame]
    · rw [hwins.elected]
      rfl

/-- Three hosts in three networks say the same. -/
example : (run (fun _ => true) 0 ([1, 2, 3].map fun n => ⟨0, .v4 7, .peer, .ip (.v4 (UInt32.ofNat (n * 2 ^ 8))), .direct⟩)).published.get false
    = some (.v4 7) := by decide

end ExternalIp

end Risuko
