import Risuko.Lemmas.KadLookup

/-!
# Kad over whole runs

The routing table after any calls: where each contact stands, what the index says, which contacts are the closest, and that a snapshot removes no contact
that is newer than it.
-/

namespace Risuko

namespace Kad

namespace Routing

/-! ## The routing table -/

variable {s : Routing}

/-- A table that was new, after calls. -/
def Reachable (s : Routing) : Prop := Reach (fun s => ∃ localId, s.table = .new localId) (fun s s' => ∃ a, s' = s.call a) s

/-- Every table that calls lead to is in order. -/
theorem Reachable.ok (h : s.Reachable) : s.table.Ok := by
  refine @Reach.invariant _ _ _ (fun s => s.table.Ok) (fun s hinit => ?_) (fun s s' hok ⟨a, hcall⟩ => ?_) _ h
  · obtain ⟨localId, htable⟩ := hinit
    rw [htable]
    exact .new localId
  · rw [hcall]
    exact ok_call hok a

/-- After any calls: each contact is in the bucket of its index; buckets and replacement lists are not longer than they may be; the index has exactly
the ids in the buckets; no id is there twice; contacts wait only for a full bucket; a snapshot does not remove a contact that has been updated or
marked alive since, or inserted from a value that was made since; and the closest contacts are the nearest ones, as many as were asked for, but not
more than 64. -/
theorem routing_table_sound (h : s.Reachable) :
    (∀ i, ∀ c ∈ s.table.buckets i, s.table.localId.bucketIndex c.id = some i) ∧
    (∀ i, (s.table.buckets i).length ≤ 10 ∧ (s.table.replacements i).length ≤ 10) ∧
    (∀ id i, s.table.byId id = some i ↔ ∃ c ∈ s.table.buckets i, c.id = id) ∧
    (((List.range idBits).flatMap fun i => s.table.buckets i ++ s.table.replacements i).map (·.id)).Nodup ∧
    (∀ i, s.table.replacements i ≠ [] → (s.table.buckets i).length = 10) ∧
    (∀ expected : Contact, expected.refreshGeneration < s.next →
      ∀ s', Reach (· = (s, false)) (fun p q => ∃ a, q = (p.1.call a, p.1.renewed s.next expected.id p.2 a)) (s', true) →
        s'.table.removeIfUnchanged expected = (none, s'.table)) ∧
    ∀ target limit, (s.table.closest target limit).length = min (min limit 64) s.table.contacts.length ∧
      (∀ c ∈ s.table.closest target limit, c ∈ s.table.contacts) ∧
      ((s.table.closest target limit).Pairwise fun a b => target.compareDistance a.id b.id = .lt) ∧
      ∀ c ∈ s.table.contacts, c ∈ s.table.closest target limit ∨ ∀ b ∈ s.table.closest target limit, target.compareDistance b.id c.id = .lt := by
  have hok := h.ok
  refine ⟨fun i c hc => ?_, fun i => ?_, fun id i => ?_, hok.nodup_ids, fun i hne => ?_, fun expected hexpected s' hs' => ?_, hok.closest⟩
  · exact (hok.cells i).placed c.id (List.mem_append_left _ (List.mem_map_of_mem hc))
  · have hroom := (hok.cells i).room
    unfold RoutingTable.bucketIds RoutingTable.replacementIds at hroom
    rw [List.length_map, List.length_map] at hroom
    exact hroom
  · rw [hok.indexed id i]
    exact List.mem_map
  · have hfull := (hok.cells i).full (List.map_eq_nil_iff.not.mpr hne)
    unfold RoutingTable.bucketIds at hfull
    rw [List.length_map] at hfull
    exact hfull
  · -- The contact of the id has a newer generation whenever it has come since.
    have hrun : s'.table.Ok ∧ s.next ≤ s'.next ∧ (true = true → s'.Newer s.next expected.id) := by
      refine @Reach.invariant _ _ _ (fun p => p.1.table.Ok ∧ s.next ≤ p.1.next ∧ (p.2 = true → p.1.Newer s.next expected.id))
        (fun p hp => ?_) (fun p q hp ⟨a, hq⟩ => ?_) _ hs'
      · rw [hp]
        exact ⟨hok, le_rfl, nofun⟩
      · rw [hq]
        exact ⟨ok_call hp.1 a, hp.2.1.trans (brings_call hp.1 a).1, Newer.call hp.1 hp.2.1 hp.2.2 a⟩
    refine RoutingTable.removeIfUnchanged_eq fun c hc hid => ?_
    have hnewer := hrun.2.2 rfl c hc hid
    omega

/-- A contact in bucket `i` of the table of the zero id. -/
def contactIn (i j : ℕ) : Contact where
  id := ⟨UInt8.ofNat (2 ^ (7 - i)) :: List.replicate 14 0 ++ [UInt8.ofNat (j + 1)], rfl⟩
  addr := ⟨⟨8, 8, 8, 8⟩, 4672⟩
  tcpPort := 4662
  version := 8
  lastSeen := 0
  lastVerified := 0
  refreshGeneration := 1

/-- A new table, into which contacts have been inserted. -/
def tableOf (places : List (ℕ × ℕ)) : Routing := places.foldl (fun s p => s.call (.insert (contactIn p.1 p.2) 0)) ⟨.new .zero, 2⟩

theorem reachable_tableOf (places : List (ℕ × ℕ)) : (tableOf places).Reachable := by
  unfold tableOf
  induction places using List.reverseRecOn with
  | nil => exact .init ⟨_, rfl⟩
  | append_singleton places p ih =>
    rw [List.foldl_append]
    exact .step ih ⟨.insert (contactIn p.1 p.2) 0, rfl⟩

/-- One contact in a bucket, and twelve for another one. -/
def crowded : Routing := tableOf ((1, 0) :: (List.range 12).map (0, ·))

/-- Two contacts wait for the full bucket; a snapshot of one that has been marked alive since removes nothing. -/
theorem routing_table_sound_crowded :
    (crowded.table.replacements 0).length = 2 ∧ (crowded.table.buckets 0).length = 10 ∧
      (crowded.call (.markAlive (contactIn 0 0).id 5)).table.removeIfUnchanged (contactIn 0 0) =
        (none, (crowded.call (.markAlive (contactIn 0 0).id 5)).table) ∧
      (crowded.table.closest .zero 5).length = min (min 5 64) 11 := by
  obtain ⟨-, -, -, -, hfull, hsnapshot, hclosest⟩ := routing_table_sound (reachable_tableOf ((1, 0) :: (List.range 12).map (0, ·)))
  have hwait : (crowded.table.replacements 0).length = 2 := by decide +kernel
  refine ⟨hwait, hfull 0 fun hnil => ?_, hsnapshot (contactIn 0 0) (by decide +kernel) _
    (.step (.init rfl) ⟨.markAlive (contactIn 0 0).id 5, Prod.ext rfl (by decide +kernel)⟩), (hclosest .zero 5).1.trans (by decide +kernel)⟩
  have hempty : (crowded.table.replacements 0).length = 0 := List.length_eq_zero_iff.mpr hnil
  omega

/-- Of seventy contacts not more than 64 are the closest; and the very value that a snapshot was taken of, inserted again, goes with the snapshot. -/
theorem routing_table_stops :
    (¬ ∀ s : Routing, s.Reachable → ∀ target limit, (s.table.closest target limit).length = min limit s.table.contacts.length) ∧
    ¬ ∀ s : Routing, s.Reachable → ∀ expected, s.table.get expected.id = some expected → ∀ s', s' = s.call (.remove expected.id) →
      ∀ contact now, contact.id = expected.id → (s'.insert contact now).1 = .inserted →
        ((s'.insert contact now).2.table.removeIfUnchanged expected).1 = none := by
  constructor
  · intro hclaim
    have hall : (tableOf ((List.range 7).flatMap fun i => (List.range 10).map fun j => (i, j))).table.contacts.length = 70 := by decide +kernel
    have hlength := hclaim _ (reachable_tableOf ((List.range 7).flatMap fun i => (List.range 10).map fun j => (i, j))) .zero 70
    have hlimit : (RoutingTable.closest (tableOf ((List.range 7).flatMap fun i => (List.range 10).map fun j => (i, j))).table .zero 70).length ≤ 64 :=
      List.length_take_le 64 _
    omega
  · intro hclaim
    have hnone := hclaim _ (reachable_tableOf [(0, 0)]) (contactIn 0 0) (by decide +kernel) _ rfl (contactIn 0 0) 0 rfl (by decide +kernel)
    revert hnone
    decide +kernel

end Routing

/-! ## The source lookup -/

namespace Lookup

variable {config : LookupConfig} {localId target : KadId} {initial : List Contact} {s : Lookup}

/-- From whatever contacts a lookup starts, and whatever the replies are: there are not more replies than the two budgets together, no node gets two
routing queries or two source queries, and not more nodes are asked than the budget allows. When nothing is in flight any more and the budget is not
used up, each of the ten contacts nearest to the target, among those that are known and have not failed, has answered, and it has got a source query
when its version is high enough, as long as there was one left. -/
theorem source_lookup_converges (h : Reachable config localId target initial s) :
    s.replies + s.inflight.length ≤ config.bounded.maxQueries + config.bounded.sourceLimit ∧
    s.asked.Nodup ∧ s.sourced.Nodup ∧ s.asked.length ≤ config.bounded.maxQueries ∧
    (s.inflight = [] → s.asked.length < config.bounded.maxQueries → ∀ c, s.Nearest target c →
      c.id ∈ s.answered ∧ (minSourceSearchKadVersion ≤ c.version → s.sourceQueries < config.bounded.sourceLimit → c.id ∈ s.sourced)) := by
  obtain ⟨hok, hrouting, hsources⟩ := h.ok
  have hreplies := hok.replies
  have hasked := hok.asked_le
  have hsourced := hok.sources_le
  have hcount := hok.sources
  refine ⟨by omega, hok.nodup_asked, hok.nodup_sourced, hasked, fun hempty hbudget c hc => ?_⟩
  have halpha : 1 ≤ config.bounded.alpha := le_max_left _ _
  have hnone : s.awaited = [] := by
    unfold awaited
    rw [hempty]
    rfl
  obtain ⟨e, he, rfl⟩ := hok.window_of_nearest (max_le (by decide) (min_le_right _ _)) hc
  have hentry : e ∈ s.shortlist.entries := List.mem_of_mem_filter (List.mem_of_mem_take he)
  -- With nothing in flight the loops have stopped only because the window was done.
  have hwindow : e.state ≠ .unqueried := by
    have hinflight := hok.routing_count
    rw [hnone, List.length_nil] at hinflight
    exact (hrouting.resolve_left (by omega)).resolve_left (by omega) e he
  have hanswered : e.contact.id ∈ s.answered := by
    rw [hok.states e hentry, ne_eq, stateOf_unqueried, not_not, hok.fates.mem_iff, hnone, List.nil_append] at hwindow
    exact (List.mem_append.mp hwindow).resolve_right hc.2.1
  refine ⟨hanswered, fun hversion hleft => ?_⟩
  have hstate : e.state = .responded := by
    rw [hok.states e hentry, stateOf, if_neg (not_not.mpr (hok.asked_of_fate.2.1 hanswered)), if_pos hanswered]
  have hwaits : Shortlist.sourceWaits e = false := by
    have hinflight := hok.source_count
    rw [hempty, List.count_nil] at hinflight
    exact (hsources.resolve_left (by omega)).resolve_left (by omega) e he
  refine (hok.sent e hentry).mp ?_
  unfold Shortlist.sourceWaits at hwaits
  rw [hstate, decide_eq_true hversion] at hwaits
  cases hsent : e.sourceSent with
  | true => rfl
  | false =>
    rw [hsent] at hwaits
    cases hwaits

def nodeOf (b version : UInt8) : Contact := ⟨⟨List.replicate 16 b, List.length_replicate ..⟩, ⟨⟨8, 8, 8, 8⟩, 4672⟩, 4662, version, 0, 0, 0⟩

/-- A contact behind all others. -/
theorem add_last {s : Shortlist} {c : Contact} (hnew : s.known.any (·.id = c.id) = false)
    (hlast : (s.entries ++ [ShortlistEntry.mk c .unqueried false]).Pairwise fun left right =>
      (s.target.compareDistance left.contact.id right.contact.id).isLE = true) :
    s.add c = { s with entries := (s.entries ++ [ShortlistEntry.mk c .unqueried false]).take maxShortlist, known := c :: s.known } := by
  unfold Shortlist.add
  rw [hnew, if_neg Bool.false_ne_true, List.mergeSort_of_pairwise hlast]

/-- Three contacts, the last of an old version. -/
def threeNodes : Lookup where
  shortlist := ⟨.zero, [⟨nodeOf 1 8, .unqueried, false⟩, ⟨nodeOf 2 8, .unqueried, false⟩, ⟨nodeOf 4 2, .unqueried, false⟩],
    [nodeOf 4 2, nodeOf 2 8, nodeOf 1 8]⟩
  tracker := ⟨[], 64⟩
  sourceQueries := 0
  routingInflight := 0
  sourceInflight := 0
  inflight := []
  asked := []
  answered := []
  failed := []
  sourced := []
  replies := 0

theorem begin_threeNodes : begin (LookupConfig.bounded ⟨3, 64, 300⟩) .zero [nodeOf 1 8, nodeOf 2 8, nodeOf 4 2] = threeNodes := by
  unfold begin Shortlist.new
  simp only [List.foldl_cons, List.foldl_nil]
  rw [add_last (c := nodeOf 1 8) (by decide) (by decide), add_last (c := nodeOf 2 8) (by decide) (by decide),
    add_last (c := nodeOf 4 2) (by decide) (by decide)]
  rfl

/-- A turn of a lookup of the default limits. -/
def turn (s : Lookup) (reply : Query × Option KadPacket) : Option Lookup :=
  if reply.1 ∈ s.inflight then some ((s.receive .zero (fun _ => (0, 0)) reply.1 reply.2).fill (LookupConfig.bounded ⟨3, 64, 300⟩)) else none

/-- The first contact fails, and the others answer without telling of new ones. -/
def twoAnswer : List (Query × Option KadPacket) :=
  [(.routing (nodeOf 2 8).id, some ⟨0x29, []⟩), (.routing (nodeOf 1 8).id, none), (.source, none), (.routing (nodeOf 4 2).id, some ⟨0x29, []⟩)]

/-- One of three contacts fails, and of the two that answer the newer one is asked for sources. -/
theorem source_lookup_converges_three :
    ∃ s, runActions turn (threeNodes.fill (LookupConfig.bounded ⟨3, 64, 300⟩)) twoAnswer = some s ∧
      s.failed = [(nodeOf 1 8).id] ∧ (nodeOf 2 8).id ∈ s.answered ∧ (nodeOf 2 8).id ∈ s.sourced := by
  obtain ⟨s, hrun, hempty, hbudget, hleft, hfailed, hnear⟩ : ∃ s ∈ runActions turn (threeNodes.fill (LookupConfig.bounded ⟨3, 64, 300⟩)) twoAnswer,
      s.inflight = [] ∧ s.asked.length < 64 ∧ s.sourceQueries < 32 ∧ s.failed = [(nodeOf 1 8).id] ∧
        nodeOf 2 8 ∈ s.shortlist.known ∧ (nodeOf 2 8).id ∉ s.failed ∧
        (s.shortlist.known.filter fun b => b.id ∉ s.failed && KadId.zero.compareDistance b.id (nodeOf 2 8).id == .lt).length < bucketSize := by
    decide +kernel
  have h : Reachable ⟨3, 64, 300⟩ .zero .zero [nodeOf 1 8, nodeOf 2 8, nodeOf 4 2] s := by
    unfold Reachable
    rw [begin_threeNodes]
    refine Reach.mono (fun s s' ⟨reply, hturn⟩ => ?_) (Reach.runActions hrun (.init rfl))
    obtain ⟨hquery, hturn⟩ := Option.ite_none_right_eq_some.mp hturn
    exact ⟨_, reply.1, hquery, reply.2, (Option.some.inj hturn).symm⟩
  obtain ⟨-, -, -, -, hnearest⟩ := source_lookup_converges h
  obtain ⟨hanswered, hsourced⟩ := hnearest hempty hbudget (nodeOf 2 8) hnear
  exact ⟨s, hrun, hfailed, hanswered, hsourced (by decide) hleft⟩

end Lookup

end Kad

end Risuko
