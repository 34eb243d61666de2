import Mathlib.Data.UInt
import Risuko.Lemmas.Inbound
import Risuko.Lemmas.Refusals
import Risuko.Lemmas.Routing
import Risuko.Lib.Reach

/-!
# The DHT node

What the routing table loses to a contact it refuses, how long a token is good, and the limits of the peer store.
-/

namespace Risuko

/-!
## The routing table stays in order

Whatever calls are made, the buckets of a routing table partition the distances, every node is where lookups look for it, no id and
no host occurs twice, and a lookup finds the nodes that are closest.
-/

namespace RoutingTable

/-! ### Lookups -/

/-- What a lookup may answer with: the nodes with their distances to the target. -/
def candidates (t : RoutingTable) (target : Id20) (keep : RoutingNode → Bool) : List (Id20 × Id20 × SocketAddr) :=
  (t.nodes.filter keep).map fun node => (node.id.distance target, node.id, node.addr)

theorem closestMatching_eq (std : UnstableSort byDistance) (t : RoutingTable) (target : Id20) (n : Nat) (keep : RoutingNode → Bool) :
    t.closestMatching std target n keep = (std.least (t.candidates target keep) n).map (·.2) := rfl

/-- A candidate is a kept node of the table beside its distance to the target. -/
theorem mem_candidates {t : RoutingTable} {target : Id20} {keep : RoutingNode → Bool} {e : Id20 × Id20 × SocketAddr} :
    e ∈ t.candidates target keep
      ↔ ∃ node ∈ t.nodes, keep node = true ∧ (node.id.distance target, node.id, node.addr) = e := by
  simp [candidates, and_assoc]

/-- Nodes have distinct distances to a target. -/
theorem Ok.nodup_candidates {t : RoutingTable} (h : Ok t) (target : Id20) (keep : RoutingNode → Bool) :
    ((t.candidates target keep).map byDistance).Nodup := by
  have hids : ((t.nodes.filter keep).map (·.id)).Nodup := h.ids.sublist (List.filter_sublist.map _)
  have hbytes : (((t.nodes.filter keep).map (·.id)).map fun id : Id20 => (id.distance target).bytes).Nodup := by
    refine hids.map_on fun a _ b _ he => ?_
    exact Id20.distance_right_cancel (Id20.ext he)
  simpa only [candidates, byDistance, List.map_map, Function.comp_def] using hbytes

/-- The answer `out` to a lookup of `n` nodes: as many as there are up to `n`, in the order of their distances, and none is
farther than one left out. -/
def Closest (t : RoutingTable) (keep : RoutingNode → Bool) (target : Id20) (n : Nat) (out : List (Id20 × SocketAddr)) : Prop :=
  out.length = min n (t.nodes.countP keep)
    ∧ (∀ e ∈ out, ∃ node ∈ t.nodes, keep node = true ∧ (node.id, node.addr) = e)
    ∧ out.Pairwise (fun a b => a.1.distance target < b.1.distance target)
    ∧ ∀ node ∈ t.nodes, keep node = true →
      (node.id, node.addr) ∈ out ∨ ∀ e ∈ out, e.1.distance target < node.id.distance target

/-- In a table that is in order, a lookup answers with the nearest of the nodes it keeps. -/
theorem Ok.closestMatching {t : RoutingTable} (h : Ok t) (std : UnstableSort byDistance) (target : Id20) (n : Nat)
    (keep : RoutingNode → Bool) : Closest t keep target n (t.closestMatching std target n keep) := by
  have hkey := h.nodup_candidates target keep
  -- An entry of the answer carries the distance of its node.
  have hdist : ∀ e ∈ std.least (t.candidates target keep) n, e.1 = e.2.1.distance target := by
    intro e he
    obtain ⟨node, -, -, rfl⟩ := mem_candidates.mp (UnstableSort.mem_of_mem_least he)
    rfl
  rw [closestMatching_eq]
  refine ⟨?_, ?_, ?_, ?_⟩
  · rw [List.length_map, std.length_least, candidates, List.length_map, List.countP_eq_length_filter]
  · intro e he
    obtain ⟨c, hc, rfl⟩ := List.mem_map.mp he
    obtain ⟨node, hnode, hkeep, rfl⟩ := mem_candidates.mp (UnstableSort.mem_of_mem_least hc)
    exact ⟨node, hnode, hkeep, rfl⟩
  · rw [List.pairwise_map]
    refine (std.pairwise_least hkey n).imp_of_mem fun {a b} ha hb hlt => ?_
    rw [← hdist a ha, ← hdist b hb]
    exact hlt
  · intro node hnode hkeep
    rcases std.least_lt hkey n (mem_candidates.mpr ⟨node, hnode, hkeep, rfl⟩) with hmem | hlt
    · exact .inl (List.mem_map_of_mem hmem)
    · refine .inr fun e he => ?_
      obtain ⟨c, hc, rfl⟩ := List.mem_map.mp he
      rw [← hdist c hc]
      exact hlt c hc

/-! ### Every run -/

/-- The tables that calls can lead to. -/
abbrev Reachable : RoutingTable → Prop :=
  Reach (fun t => ∃ ourId now, t = RoutingTable.new ourId now) (fun t t' => ∃ c, t.perform c = some t')

/-- Whatever calls are made, the table is in order. -/
theorem Reachable.ok {t : RoutingTable} (h : Reachable t) : Ok t := by
  refine h.invariant (fun t ht => ?_) (fun t t' hok ht => ?_)
  · obtain ⟨ourId, now, rfl⟩ := ht
    exact ok_root ourId none now
  · obtain ⟨c, hc⟩ := ht
    obtain ⟨t₁, ht₁, hok₁⟩ := hok.perform c
    rw [hc] at ht₁
    cases ht₁
    exact hok₁

/-- In every table that calls lead to from a new one: each distance matches one bucket; each node is in the bucket of its distance to
our own id; a bucket holds at most eight nodes; our own id is not stored, and neither an id nor a host is stored twice. Every
further call ends, and `closest_nodes` answers with the closest nodes that are not bad. -/
theorem table_in_order (std : UnstableSort byDistance) {t : RoutingTable} (h : Reachable t) :
    (∀ distance, t.buckets.countP (fun b => b.matches distance) = 1)
      ∧ (∀ b ∈ t.buckets, ∀ n ∈ b.nodes, b.matches (t.ourId.distance n.id) = true)
      ∧ (∀ b ∈ t.buckets, b.nodes.length ≤ 8)
      ∧ (∀ n ∈ t.nodes, n.id ≠ t.ourId)
      ∧ (t.nodes.map (·.id)).Nodup
      ∧ (t.nodes.map (·.addr.ip.hostPrefix)).Nodup
      ∧ (∀ c, ∃ t', t.perform c = some t')
      ∧ ∀ target n, Closest t (fun node => node.liveness ≠ .bad) target n (t.closestNodes std target n) := by
  have hok := h.ok
  refine ⟨hok.covers, hok.placed, hok.small, hok.foreign, hok.ids, hok.hosts, fun c => ?_, fun target n => ?_⟩
  · obtain ⟨t', ht', -⟩ := hok.perform c
    exact ⟨t', ht'⟩
  · exact hok.closestMatching std target n _

/-- A node at a private address. -/
def sampleAdd (k : UInt8) : Call :=
  .add ⟨k :: List.replicate 19 0, rfl⟩ (.v4 (10 * 2 ^ 24 + k.toUInt32) 6881) k.toNat k.toNat

/-- Nine nodes split the root bucket. -/
theorem table_in_order_nine_nodes :
    ∃ t, runActions perform (RoutingTable.new .zero 0) ([1, 2, 3, 4, 5, 200, 201, 202, 203].map sampleAdd) = some t
      ∧ t.buckets.length = 2 ∧ t.nodes.length = 9 ∧ (∀ distance, t.buckets.countP (fun b => b.matches distance) = 1)
      ∧ Closest t (fun node => node.liveness ≠ .bad) .zero 3 (t.closestNodes (UnstableSort.merge byDistance) .zero 3) := by
  have hrun : ∃ t, runActions perform (RoutingTable.new .zero 0) ([1, 2, 3, 4, 5, 200, 201, 202, 203].map sampleAdd) = some t
      ∧ t.buckets.length = 2 ∧ t.nodes.length = 9 := ⟨_, rfl, by decide +kernel, by decide +kernel⟩
  obtain ⟨t, ht, hbuckets, hnodes⟩ := hrun
  have hall := table_in_order (UnstableSort.merge byDistance) (Reach.runActions ht (.init ⟨.zero, 0, rfl⟩))
  exact ⟨t, ht, hbuckets, hnodes, hall.1, hall.2.2.2.2.2.2.2 .zero 3⟩

end RoutingTable

namespace RoutingTable

/-- In every table that calls lead to: when a call ends, a refused contact has cost no node that was not bad, and no good node is gone but for one
at the same address under another id, exactly when no node gave way to a contact that has no place. -/
theorem refused_contact_costs {t t' : RoutingTable} (h : Reachable t) {id : Id20} {addr : SocketAddr} {liveness : RoutingLiveness}
    {now later : Nat} (ht : t.addWithLiveness id addr liveness now later = some t') :
    CostsNothing t t' id addr ↔ ¬ LosesNode t id addr liveness := h.ok.costs_addWithLiveness ht

/-- The bucket of the far ids is full of good nodes, and a near node was heard of. -/
def crowdedRun : List Call :=
  [200, 201, 202, 203, 204, 205, 206, 207].map sampleAdd
    ++ [.addWithLiveness ⟨1 :: List.replicate 19 0, rfl⟩ (.v4 (10 * 2 ^ 24 + 1) 6881) .questionable 300 300]

/-- A far id at the host of the near node. -/
def farId : Id20 := ⟨208 :: List.replicate 19 0, rfl⟩

/-- A questionable contact with a far id, at the host of the near node. -/
theorem refused_contact_costs_far :
    ∃ t t', runActions perform (RoutingTable.new .zero 0) crowdedRun = some t
      ∧ t.addWithLiveness farId (.v4 (10 * 2 ^ 24 + 1) 6881) .questionable 400 400 = some t'
      ∧ (CostsNothing t t' farId (.v4 (10 * 2 ^ 24 + 1) 6881) ↔ ¬ LosesNode t farId (.v4 (10 * 2 ^ 24 + 1) 6881) .questionable) := by
  obtain ⟨t, t', ht, hcall⟩ : ∃ t t', runActions perform (RoutingTable.new .zero 0) crowdedRun = some t
      ∧ t.addWithLiveness farId (.v4 (10 * 2 ^ 24 + 1) 6881) .questionable 400 400 = some t' := ⟨_, _, rfl, rfl⟩
  exact ⟨t, t', ht, hcall, refused_contact_costs (.runActions ht (.init ⟨.zero, 0, rfl⟩)) hcall⟩

/-- The near node is taken out, and then the bucket of the far ids has no place for the contact. -/
theorem refused_contact_loses_node :
    ¬ ∀ t, Reachable t → ∀ id addr liveness now later t', t.addWithLiveness id addr liveness now later = some t' → CostsNothing t t' id addr := by
  intro h
  obtain ⟨t, t', ht, hcall, hnear, hgone⟩ : ∃ t t', runActions perform (RoutingTable.new .zero 0) crowdedRun = some t
      ∧ t.addWithLiveness farId (.v4 (10 * 2 ^ 24 + 1) 6881) .good 400 400 = some t'
      ∧ (t.nodes.any fun n => n.id.bytes.head? = some 1 && n.liveness = .questionable) = true
      ∧ (t'.nodes.all fun n => n.id.bytes.head? ≠ some 1 && n.id ≠ farId) = true := ⟨_, _, rfl, rfl, rfl, rfl⟩
  have hcost := h t (.runActions ht (.init ⟨.zero, 0, rfl⟩)) _ _ _ _ _ t' hcall
  rw [List.any_eq_true] at hnear
  rw [List.all_eq_true] at hgone
  obtain ⟨n, hn, hnear⟩ := hnear
  simp only [Bool.and_eq_true, decide_eq_true_eq] at hnear hgone
  rcases hcost.refused (fun ⟨m, hm, hid, _⟩ => (hgone m hm).2 hid) n hn (by rw [hnear.2]; decide) with hn' | ⟨-, m, hm, hid⟩
  · exact (hgone n hn').1 hnear.1
  · exact (hgone m hm).2 hid

end RoutingTable

/-! ## Tokens -/

theorem tokenRotation_pos : 0 < tokenRotation := by decide

/-- The three ways a rotation goes. -/
theorem TokenState.rotate_cases {σ : Type} (t : TokenState σ) (now : Nat) (fresh : σ × σ) :
    (now - t.rotated < tokenRotation ∧ t.rotateIfNeeded now fresh = t ∧ t.draws now fresh = []) ∨
      (tokenRotation ≤ now - t.rotated ∧ now - t.rotated < 2 * tokenRotation ∧
        t.rotateIfNeeded now fresh = ⟨fresh.1, t.current, t.rotated + tokenRotation⟩ ∧ t.draws now fresh = [fresh.1]) ∨
      (2 * tokenRotation ≤ now - t.rotated ∧ t.rotateIfNeeded now fresh = ⟨fresh.1, fresh.2, now⟩ ∧ t.draws now fresh = [fresh.1, fresh.2]) := by
  unfold TokenState.rotateIfNeeded TokenState.draws
  by_cases hnone : now - t.rotated < tokenRotation
  · exact .inl ⟨hnone, by simp [hnone], by simp [hnone]⟩
  · by_cases hboth : now - t.rotated ≥ tokenRotation * 2
    · exact .inr (.inr ⟨by omega, by simp [hnone, hboth], by simp [hnone, hboth]⟩)
    · exact .inr (.inl ⟨by omega, by omega, by simp [hnone, hboth], by simp [hnone, hboth]⟩)

namespace TokenHistory

variable {σ τ : Type} [DecidableEq σ] [DecidableEq τ] {tokenForSecret : σ → IpAddr → τ} {s s' : TokenHistory σ}

/-- The last call was within the period of the current secret. -/
structure Ok (s : TokenHistory σ) : Prop where
  rotated : s.tokens.rotated ≤ s.last
  soon : s.last < s.tokens.rotated + tokenRotation
  current : s.tokens.current ∈ s.secrets
  previous : s.tokens.previous ∈ s.secrets

/-- How a secret stands that was the current one at time `t`. -/
structure Standing (s : TokenHistory σ) (secret : σ) (t : Nat) : Prop where
  drawn : secret ∈ s.secrets
  stage : (secret = s.tokens.current ∧ s.tokens.rotated ≤ t ∧ t ≤ s.last) ∨
    (secret = s.tokens.previous ∧ secret ≠ s.tokens.current ∧ s.tokens.rotated ≤ t + tokenRotation ∧ t < s.tokens.rotated) ∨
    (secret ≠ s.tokens.current ∧ secret ≠ s.tokens.previous ∧ t + tokenRotation < s.last)

/-- What any call does to the state: the secrets rotate, by one step, by both or not at all. -/
theorem call_cases {now : Nat} {fresh : σ × σ} {c : Call τ} {answer : Answer τ}
    (h : s.call tokenForSecret now fresh c = some (answer, s')) :
    s.last ≤ now ∧ s' = ⟨s.tokens.rotateIfNeeded now fresh, now, s.tokens.draws now fresh ++ s.secrets⟩ ∧
      (s.tokens.draws now fresh ++ s.secrets).Nodup := by
  unfold call at h
  dsimp only at h
  split at h
  · rename_i hok
    cases c <;>
    · simp only [Option.some.injEq, Prod.mk.injEq] at h
      exact ⟨hok.1, h.2.symm, hok.2⟩
  · cases h

/-- A call keeps the state within the period, and a secret where its age puts it. -/
theorem Ok.call (h : s.Ok) {now : Nat} {fresh : σ × σ} {c : Call τ} {answer : Answer τ}
    (hcall : s.call tokenForSecret now fresh c = some (answer, s')) :
    s'.Ok ∧ ∀ secret t, s.Standing secret t → s'.Standing secret t := by
  obtain ⟨hlast, rfl, hnodup⟩ := call_cases hcall
  have hpos := tokenRotation_pos
  obtain ⟨hrotated, hsoon, hcurrent, hprevious⟩ := h
  rcases s.tokens.rotate_cases now fresh with ⟨hnow, hrotate, hdraws⟩ | ⟨hnow, hnow', hrotate, hdraws⟩ | ⟨hnow, hrotate, hdraws⟩
  · rw [hrotate, hdraws]
    refine ⟨⟨hrotated.trans hlast, by dsimp only; omega, hcurrent, hprevious⟩, fun secret t hstand => ⟨hstand.drawn, ?_⟩⟩
    rcases hstand.stage with ⟨hc, h1, h2⟩ | hp | ⟨hc, hp, h1⟩
    · exact .inl ⟨hc, h1, h2.trans hlast⟩
    · exact .inr (.inl hp)
    · exact .inr (.inr ⟨hc, hp, h1.trans_le hlast⟩)
  · rw [hdraws] at hnodup
    have hfresh : fresh.1 ∉ s.secrets := (List.nodup_cons.mp hnodup).1
    rw [hrotate, hdraws]
    refine ⟨⟨by dsimp only; omega, by dsimp only; omega, List.mem_cons_self, List.mem_cons_of_mem _ hcurrent⟩, fun secret t hstand =>
      ⟨List.mem_cons_of_mem _ hstand.drawn, ?_⟩⟩
    have hne : secret ≠ fresh.1 := fun heq => hfresh (heq ▸ hstand.drawn)
    rcases hstand.stage with ⟨hc, h1, h2⟩ | ⟨-, hc, h1, h2⟩ | ⟨hc, -, h1⟩
    · exact .inr (.inl ⟨hc, hne, by dsimp only; omega, by dsimp only; omega⟩)
    · exact .inr (.inr ⟨hne, hc, by dsimp only; omega⟩)
    · exact .inr (.inr ⟨hne, hc, by dsimp only; omega⟩)
  · rw [hdraws] at hnodup
    simp only [List.cons_append, List.nil_append, List.nodup_cons, List.mem_cons, not_or] at hnodup
    obtain ⟨⟨-, hfresh⟩, hfresh', -⟩ := hnodup
    rw [hrotate, hdraws]
    refine ⟨⟨le_rfl, by dsimp only; omega, by simp, by simp⟩, fun secret t hstand =>
      ⟨List.mem_append_right _ hstand.drawn, .inr (.inr
        ⟨fun (heq : secret = fresh.1) => hfresh (heq ▸ hstand.drawn), fun (heq : secret = fresh.2) => hfresh' (heq ▸ hstand.drawn), ?_⟩)⟩⟩
    dsimp only
    rcases hstand.stage with ⟨-, h1, h2⟩ | ⟨-, -, h1, h2⟩ | ⟨-, -, h1⟩ <;> omega

/-- A run keeps the state within the period, and every secret where its age puts it. -/
theorem Ok.after (h : s.Ok) (hrun : s.After tokenForSecret s') : s'.Ok ∧ ∀ secret t, s.Standing secret t → s'.Standing secret t := by
  induction hrun with
  | init heq =>
    subst heq
    exact ⟨h, fun _ _ hstand => hstand⟩
  | step _ hcall ih =>
    obtain ⟨now, fresh, c, answer, hcall⟩ := hcall
    obtain ⟨hok, hkeep⟩ := ih
    obtain ⟨hok', hkeep'⟩ := hok.call hcall
    exact ⟨hok', fun secret t hstand => hkeep' secret t (hkeep secret t hstand)⟩

/-- A token is accepted from the address it was issued to for one period, and never from the end of the second one on. -/
theorem token_lifetime (hinj : ∀ ip, Function.Injective fun secret => tokenForSecret secret ip) {secret : σ} {start : Nat}
    (hreach : (TokenHistory.new secret start).After tokenForSecret s) {t : Nat} {fresh : σ × σ} {addr : SocketAddr} {token : τ}
    {issued : TokenHistory σ} (hissue : s.call tokenForSecret t fresh (.tokenFor addr) = some (.token token, issued))
    {later : TokenHistory σ} (hrun : issued.After tokenForSecret later) {t' : Nat} {fresh' : σ × σ} {addr' : SocketAddr}
    (hip : addr'.ip = addr.ip) {ok : Bool}
    (hvalid : later.call tokenForSecret t' fresh' (.valid addr' token) = some (.accepted ok, s')) :
    (t' ≤ t + tokenRotation → ok = true) ∧ (t + 2 * tokenRotation ≤ t' → ok = false) := by
  have hnew : (TokenHistory.new secret start).Ok :=
    ⟨le_rfl, Nat.lt_add_of_pos_right tokenRotation_pos, List.mem_singleton_self _, List.mem_singleton_self _⟩
  have hissued := ((hnew.after hreach).1.call hissue).1
  obtain ⟨-, hstate, -⟩ := call_cases hissue
  have hstand : issued.Standing issued.tokens.current t :=
    ⟨hissued.current, .inl ⟨rfl, by simpa [hstate] using hissued.rotated, by simp [hstate]⟩⟩
  have htoken : token = tokenForSecret issued.tokens.current addr.ip := by
    unfold call at hissue
    dsimp only at hissue
    split at hissue
    · simp only [Option.some.injEq, Prod.mk.injEq, Answer.token.injEq] at hissue
      rw [← hissue.1, ← hissue.2]
      rfl
    · cases hissue
  obtain ⟨hlater, hkeep⟩ := hissued.after hrun
  obtain ⟨hend, hkeep'⟩ := hlater.call hvalid
  obtain ⟨-, hstage⟩ := hkeep' _ _ (hkeep _ _ hstand)
  obtain ⟨-, hstate', -⟩ := call_cases hvalid
  have hlast : s'.last = t' := by rw [hstate']
  have hok : ok = (decide (token = tokenForSecret s'.tokens.current addr.ip) || decide (token = tokenForSecret s'.tokens.previous addr.ip)) := by
    unfold call at hvalid
    dsimp only at hvalid
    split at hvalid
    · simp only [Option.some.injEq, Prod.mk.injEq, Answer.accepted.injEq] at hvalid
      rw [← hvalid.1, ← hvalid.2, ← hip]
      rfl
    · cases hvalid
  have hdiffer : ∀ secret', token = tokenForSecret secret' addr.ip ↔ issued.tokens.current = secret' := fun secret' => by
    rw [htoken]
    exact (hinj addr.ip).eq_iff
  simp only [hdiffer] at hok
  obtain ⟨hrotated, hsoon, -, -⟩ := hend
  rw [hlast] at hstage hrotated hsoon
  rcases hstage with ⟨hc, h1, h2⟩ | ⟨hp, hc, h1, h2⟩ | ⟨hc, hp, h1⟩
  · exact ⟨fun _ => by simp [hok, hc], fun hlate => by omega⟩
  · exact ⟨fun _ => by simp [hok, hp], fun hlate => by omega⟩
  · exact ⟨fun hearly => by omega, fun _ => by simp [hok, hc, hp]⟩

def minute : Nat := 60 * 1000000000

/-- A token of the first minute is accepted past a rotation, and no longer past the next. -/
theorem token_lifetime_rotations :
    ∃ issued used : TokenHistory Nat,
      (TokenHistory.new 0 0).call Prod.mk minute (1, 2) (.tokenFor (.v4 1 1)) = some (.token (0, .v4 1), issued) ∧
      (∃ ok, issued.call Prod.mk (6 * minute) (1, 2) (.valid (.v4 1 2) (0, .v4 1)) = some (.accepted ok, used) ∧ ok = true) ∧
      used.tokens.current = 1 ∧
      ∃ ok later, used.call Prod.mk (11 * minute) (3, 4) (.valid (.v4 1 3) (0, .v4 1)) = some (.accepted ok, later) ∧ ok = false := by
  have hinj : ∀ ip : IpAddr, Function.Injective fun secret : Nat => (secret, ip) := fun _ _ _ heq => (Prod.mk.inj heq).1
  obtain ⟨issued, hissue, used, hused, hcurrent, later, hlater⟩ : ∃ issued : TokenHistory Nat,
      (TokenHistory.new 0 0).call Prod.mk minute (1, 2) (.tokenFor (.v4 1 1)) = some (.token (0, .v4 1), issued) ∧ ∃ used,
        issued.call Prod.mk (6 * minute) (1, 2) (.valid (.v4 1 2) (0, .v4 1)) = some (.accepted true, used) ∧ used.tokens.current = 1 ∧
        ∃ later, used.call Prod.mk (11 * minute) (3, 4) (.valid (.v4 1 3) (0, .v4 1)) = some (.accepted false, later) :=
    ⟨_, rfl, _, rfl, rfl, _, rfl⟩
  exact ⟨issued, used, hissue, ⟨true, hused, (token_lifetime hinj (.init rfl) hissue (.init rfl) rfl hused).1 (by decide)⟩, hcurrent,
    false, later, hlater, (token_lifetime hinj (.init rfl) hissue (.step (.init rfl) ⟨_, _, _, _, hused⟩) rfl hlater).2 (by decide)⟩

end TokenHistory

/-! ## The peer store -/

namespace PeerStore

/-- The calls on a store, and the last reading of the clock by an announce. Each announce reads it later than the one before, under the lock;
`get_peers` reads it before it takes the lock, and so at any time. -/
inductive Step : PeerStore × Nat → PeerStore × Nat → Prop where
  | addPeer {s s' : PeerStore} {last now fuel : Nat} {hash : Id20} {addr : SocketAddr} {evicted : List Eviction} :
      last < now → s.addPeer fuel hash addr now = some (s', evicted) → Step (s, last) (s', now)
  | getPeers (s : PeerStore) (last now : Nat) (hash : Id20) (family : Option Bool) : Step (s, last) ((s.getPeers hash family now).2, last)
  | setPrivate (s : PeerStore) (last : Nat) (hash : Id20) (isPrivate : Bool) : Step (s, last) (s.setPrivate hash isPrivate, last)

/-- A store that was empty, after calls. -/
def Reachable (s : PeerStore) (last : Nat) : Prop := Reach (fun x => x.1 = new) Step (s, last)

/-- A call keeps the limits, and no peer was seen after the last announce. -/
theorem Ok.step {s s' : PeerStore} {last last' : Nat} (h : s.Ok last) (hstep : Step (s, last) (s', last')) : s'.Ok last' := by
  cases hstep with
  | @addPeer _ _ _ _ fuel hash addr evicted hlast hadd =>
    by_cases hprivate : hash ∈ s.privateHashes
    · rw [PeerStore.addPeer, if_pos hprivate] at hadd
      obtain ⟨rfl, -⟩ := Prod.mk.inj (Option.some.inj hadd)
      exact ⟨⟨h.lists, h.hidden, fun k entries hk peer hmem => (h.seen k entries hk peer hmem).trans hlast.le⟩, h.total⟩
    · obtain ⟨s'', evicted', hadd', hann⟩ := h.addPeer hprivate addr hlast fuel
      rw [addPeer_add hadd 2] at hadd'
      obtain ⟨rfl, -⟩ := Prod.mk.inj (Option.some.inj hadd')
      exact hann.ok
  | getPeers _ _ now hash family => exact h.getPeers hash family now
  | setPrivate _ _ hash isPrivate => exact h.setPrivate hash isPrivate

/-- The limits are kept after every call. -/
theorem Reachable.ok {s : PeerStore} {last : Nat} (h : Reachable s last) : s.Ok last := by
  refine @Reach.invariant _ _ _ (fun x : PeerStore × Nat => x.1.Ok x.2) (fun x hx => ?_) (fun x x' hx hstep => hx.step hstep) _ h
  rw [hx]
  exact ⟨⟨nofun, nofun, nofun⟩, Nat.zero_le _⟩

/-- The limits hold in every store that calls lead to. From it an announce of a hash that is not private ends with the address stored, and takes out only
the oldest of a group that would be too large. -/
theorem peer_store {s : PeerStore} {last : Nat} (h : Reachable s last) :
    (∀ hash entries, s.peers.get? hash = some entries → ListOk entries) ∧ count s.peers ≤ maxStoredPeers ∧
      (∀ hash ∈ s.privateHashes, s.peers.get? hash = none) ∧
      ∀ hash addr now, last < now → ∃ s' evicted, (∀ fuel, s.addPeer (fuel + 2) hash addr now = some (s', evicted)) ∧
        (hash ∈ s.privateHashes → s' = s ∧ evicted = []) ∧ (hash ∉ s.privateHashes → Announced s hash addr now s' evicted) := by
  have hok := h.ok
  refine ⟨hok.lists, hok.total, hok.hidden, fun hash addr now hlast => ?_⟩
  by_cases hprivate : hash ∈ s.privateHashes
  · exact ⟨s, [], fun fuel => if_pos hprivate, fun _ => ⟨rfl, rfl⟩, fun hn => absurd hprivate hn⟩
  · obtain ⟨s', evicted, hadd, hann⟩ := hok.addPeer hprivate addr hlast 0
    refine ⟨s', evicted, fun fuel => ?_, fun hp => absurd hp hprivate, fun _ => hann⟩
    rw [Nat.add_comm]
    exact addPeer_add hadd fuel

/-- Four announces from one address. -/
def fourPeers : PeerStore :=
  [1, 2, 3, 4].foldl (fun s n => (s.addPeer 2 .zero (.v4 7 (UInt16.ofNat n)) n).elim s (·.1)) new

/-- A fifth one puts out the first. -/
theorem peer_store_four :
    (∀ hash entries, fourPeers.peers.get? hash = some entries → ListOk entries) ∧ count fourPeers.peers ≤ maxStoredPeers ∧
      ∃ s' evicted, (∀ fuel, fourPeers.addPeer (fuel + 2) .zero (.v4 7 5) 5 = some (s', evicted)) ∧
        evicted.map (·.peer) = [⟨.v4 7 1, 1⟩] ∧ Announced fourPeers .zero (.v4 7 5) 5 s' evicted := by
  have hone : Reachable _ 1 := .step (.init rfl) (.addPeer zero_lt_one (rfl : new.addPeer 2 .zero (.v4 7 1) 1 = some (_, _)))
  have htwo : Reachable _ 2 := .step hone (.addPeer one_lt_two (rfl : addPeer 2 _ .zero (.v4 7 2) 2 = some (_, _)))
  have hthree : Reachable _ 3 := .step htwo (.addPeer (by decide) (rfl : addPeer 2 _ .zero (.v4 7 3) 3 = some (_, _)))
  have hreach : Reachable fourPeers 4 := .step hthree (.addPeer (by decide) (rfl : addPeer 2 _ .zero (.v4 7 4) 4 = some (fourPeers, _)))
  obtain ⟨hlists, hcount, -, hadd⟩ := peer_store hreach
  obtain ⟨s', evicted, hadd, -, hannounced⟩ := hadd .zero (.v4 7 5) 5 (by decide)
  refine ⟨hlists, hcount, s', evicted, hadd, ?_, hannounced (by decide)⟩
  have hout : (fourPeers.addPeer 2 .zero (.v4 7 5) 5).map (fun r => r.2.map (·.peer)) = some [⟨.v4 7 1, 1⟩] := by rfl
  rw [hadd 0] at hout
  exact Option.some.inj hout

end PeerStore

/-!
## Our own id

A new id passes the check that other nodes make of it, so that it is kept as long as the address is.
-/

namespace Id20

/-- The five bits that are kept of the first byte are not touched by the three that are set. -/
theorem high_bits (a b : UInt8) : ((a &&& 0xf8) ||| (b &&& 0x07)) &&& (0xf8 : UInt8) = a &&& (0xf8 : UInt8) := by
  apply UInt8.eq_of_toBitVec_eq
  apply BitVec.eq_of_getLsbD_eq
  intro i hi
  simp only [UInt8.toBitVec_and, UInt8.toBitVec_or, BitVec.getLsbD_and, BitVec.getLsbD_or]
  interval_cases i <;> simp

/-- An id derived for an address passes the check for that address. -/
theorem nodeIdValid_deriveNodeId (ip : IpAddr) (entropy : Id20) : (deriveNodeId ip entropy).nodeIdValid ip = true := by
  have hlast : (deriveNodeId ip entropy).byte 19 = entropy.byte 19 := by
    have hget : (deriveNodeId ip entropy).bytes[19]? = entropy.bytes[19]? := by simp [deriveNodeId, List.getElem?_drop]
    unfold byte
    simpa [List.getElem?_eq_getElem, Id20.length_eq] using hget
  have hmiddle : (deriveNodeId ip entropy).byte 2 =
    (((nodeIdCrc ip (entropy.byte 19) >>> 8).toUInt8 &&& 0xf8) ||| (entropy.byte 2 &&& 0x07)) := rfl
  unfold nodeIdValid
  split
  · rfl
  · simp only [hlast, hmiddle, high_bits, Bool.and_eq_true, beq_iff_eq]
    exact ⟨⟨rfl, rfl⟩, trivial⟩

end Id20

/-- Our id is replaced only when it is not valid for the address that was elected, no proxy stands between, and the last change is long
enough ago. The new id is valid for the address, and is kept by every plan for it. -/
theorem planned_id_settles {current id random : Id20} {elected : Option IpAddr} {proxied : Bool} {lastChange : Option Nat} {interval now : Nat}
    (h : planNodeId current elected proxied lastChange interval now random = .replace id) :
    ∃ ip, elected = some ip ∧ proxied = false ∧ current.nodeIdValid ip = false ∧ (∀ at_, lastChange = some at_ → interval ≤ now - at_) ∧
      id.nodeIdValid ip = true ∧ ∀ proxied lastChange interval now random, planNodeId id elected proxied lastChange interval now random = .keep := by
  unfold planNodeId at h
  split at h
  · nomatch h
  · rename_i ip
    split at h
    · nomatch h
    · rename_i hchange
      split at h
      · nomatch h
      · rename_i hwaited
        cases h
        have hvalid := Id20.nodeIdValid_deriveNodeId ip random
        rw [Bool.or_eq_true, not_or, Bool.not_eq_true, Bool.not_eq_true] at hchange
        refine ⟨ip, rfl, hchange.1, hchange.2, ?_, hvalid, fun proxied _ _ _ _ => ?_⟩
        · rintro at_ rfl
          simpa [Option.filter, Nat.sub_eq_zero_iff_le] using hwaited
        · unfold planNodeId Id20.generateNodeId
          simp [hvalid]

/-- A node whose id does not fit its public address replaces it with one that does. -/
theorem planned_id_settles_public : ∃ id, planNodeId .zero (some (.v4 0x7c1f4b15)) false (some 0) 5 9 .zero = .replace id ∧
    ∃ ip, some (.v4 0x7c1f4b15) = some ip ∧ Id20.nodeIdValid .zero ip = false ∧ id.nodeIdValid ip = true :=
  have h : planNodeId .zero (some (.v4 0x7c1f4b15)) false (some 0) 5 9 .zero = .replace (.generateNodeId (.v4 0x7c1f4b15) .zero) := rfl
  let ⟨ip, hip, _, hinvalid, _, hvalid, _⟩ := planned_id_settles h
  ⟨_, h, ip, hip, hinvalid, hvalid⟩

end Risuko
