import Risuko.Kad.Lookup
import Risuko.Lemmas.KadRouting

/-!
# The invariant of the source lookup

The state of an entry is told by what has become of the queries (`Lookup.stateOf`), and the entries are the contacts nearest to the target among all that
the lookup knows (`Shortlist.Ok`). As no more contacts fail than are asked, those that were cut off do not matter.
-/

namespace Risuko

namespace Kad

/-! ## The shortlist -/

section Entries

variable {p : ShortlistEntry → Bool} {f : ShortlistEntry → ShortlistEntry} {k : ℕ} {L L' : List ShortlistEntry} {c : Contact} {id : KadId}

theorem changeFirst_eq_some (h : changeFirst p f k L = some (c, L')) :
    ∃ before e after, L = before ++ e :: after ∧ L' = before ++ f e :: after ∧ e.contact = c ∧ p e = true := by
  fun_induction changeFirst p f k L generalizing L' with
  | case1 => cases h
  | case2 => cases h
  | case3 k e rest hfailed ih | case5 k e rest hfailed hp ih =>
    obtain ⟨⟨c', rest'⟩, hrest, heq⟩ := Option.map_eq_some_iff.mp h
    cases heq
    obtain ⟨before, e', after, rfl, rfl, hc, hp⟩ := ih hrest
    exact ⟨e :: before, e', after, rfl, rfl, hc, hp⟩
  | case4 k e rest hfailed hp =>
    cases h
    exact ⟨[], e, rest, rfl, rfl, rfl, hp⟩

theorem changeFirst_eq_none (h : changeFirst p f k L = none) : ∀ e ∈ (L.filter fun e => e.state ≠ .failed).take k, p e = false := by
  fun_induction changeFirst p f k L with
  | case1 => nofun
  | case2 => nofun
  | case3 k e rest hfailed ih =>
    rw [List.filter_cons, if_neg (by rw [hfailed]; decide)]
    exact ih (Option.map_eq_none_iff.mp h)
  | case4 k e rest hfailed hp => cases h
  | case5 k e rest hfailed hp ih =>
    rw [List.filter_cons, if_pos (decide_eq_true hfailed), List.take_succ_cons]
    exact List.forall_mem_cons.mpr ⟨Bool.eq_false_of_not_eq_true hp, ih (Option.map_eq_none_iff.mp h)⟩

/-- The entries with one id changed. -/
def changed (id : KadId) (f : ShortlistEntry → ShortlistEntry) (L : List ShortlistEntry) : List ShortlistEntry :=
  L.map fun e => if e.contact.id = id then f e else e

theorem changed_eq_self (h : ∀ e ∈ L, e.contact.id ≠ id) : changed id f L = L := by
  refine (List.map_congr_left fun e he => ?_).trans (List.map_id L)
  rw [if_neg (h e he)]
  rfl

/-- Where no two entries have one id, changing one place is changing the id. -/
theorem changed_split {before after : List ShortlistEntry} {e : ShortlistEntry} (h : ((before ++ e :: after).map (·.contact.id)).Nodup) :
    changed e.contact.id f (before ++ e :: after) = before ++ f e :: after := by
  rw [List.map_append, List.map_cons, List.nodup_append, List.nodup_cons] at h
  obtain ⟨-, ⟨hafter, -⟩, hbefore⟩ := h
  unfold changed
  rw [List.map_append, List.map_cons, if_pos rfl]
  refine congrArg₂ (· ++ f e :: ·) (changed_eq_self fun e' he' heq => ?_) (changed_eq_self fun e' he' heq => ?_)
  · exact hbefore _ (List.mem_map_of_mem he') _ List.mem_cons_self heq
  · exact hafter (heq ▸ List.mem_map_of_mem he')

theorem changeEntry_eq (h : (L.map (·.contact.id)).Nodup) : changeEntry id f L = changed id f L := by
  induction L with
  | nil => rfl
  | cons e rest ih =>
    rw [List.map_cons, List.nodup_cons] at h
    rw [changeEntry]
    split
    · rename_i hid
      unfold changed
      rw [List.map_cons, if_pos hid]
      refine congrArg (f e :: ·) (changed_eq_self fun e' he' heq => ?_).symm
      exact h.1 (List.mem_map.mpr ⟨e', he', heq.trans hid.symm⟩)
    · rename_i hid
      unfold changed
      rw [List.map_cons, if_neg hid, ih h.2]
      rfl

theorem contacts_changed (hf : ∀ e, (f e).contact = e.contact) : (changed id f L).map (·.contact) = L.map (·.contact) := by
  unfold changed
  rw [List.map_map]
  refine List.map_congr_left fun e _ => ?_
  change (if e.contact.id = id then f e else e).contact = e.contact
  split
  · exact hf e
  · rfl

end Entries

namespace Shortlist

variable {s l : Shortlist} {c : Contact} {id : KadId} {f : ShortlistEntry → ShortlistEntry}

/-- The place of a contact in the order of the lookup. -/
def distance (target : KadId) (c : Contact) : List UInt8 := (target.xorDistance c.id).bytes

/-- The entries are the nearest of the contacts that are known. -/
structure Ok (s : Shortlist) : Prop where
  capped : Capped (distance s.target) maxShortlist (s.entries.map (·.contact)) s.known
  ids : (s.known.map (·.id)).Nodup

theorem Ok.nodup_ids (h : s.Ok) : (s.entries.map (·.contact.id)).Nodup := by
  have hdistinct : (s.entries.map (·.contact)).Pairwise fun a b => a.id ≠ b.id := by
    refine h.capped.sorted.imp fun hlt => ?_
    have hne := Capped.key_ne_of_lt hlt
    exact fun heq => hne (by unfold distance; rw [heq])
  have hids : ((s.entries.map (·.contact)).map (·.id)).Nodup := List.pairwise_map.mpr hdistinct
  rw [List.map_map] at hids
  exact hids

theorem Ok.empty (target : KadId) : (⟨target, [], []⟩ : Shortlist).Ok := ⟨.nil, .nil⟩

/-- A new contact, when it is not known yet. -/
theorem Ok.add (h : s.Ok) (hnew : s.known.any (fun b => decide (b.id = c.id)) = false) : (s.add c).Ok ∧ (s.add c).known = c :: s.known ∧
    ∀ e ∈ (s.add c).entries, e ∈ s.entries ∨ e = ⟨c, .unqueried, false⟩ := by
  have hfresh : ∀ b ∈ s.known, b.id ≠ c.id := fun b hb heq => by
    rw [List.any_eq_false] at hnew
    exact hnew b hb (decide_eq_true heq)
  have hkeys : ∀ b ∈ s.known, distance s.target b ≠ distance s.target c := fun b hb heq => hfresh b hb (KadId.xorDistance_left_cancel heq)
  have hmap : ((s.entries ++ [ShortlistEntry.mk c .unqueried false]).mergeSort fun left right =>
      (s.target.compareDistance left.contact.id right.contact.id).isLE).map (·.contact) =
        (s.entries.map (·.contact) ++ [c]).mergeSort fun a b => (compare (distance s.target a) (distance s.target b)).isLE := by
    refine (List.map_mergeSort (s := fun a b => (compare (distance s.target a) (distance s.target b)).isLE) fun a _ b _ => rfl).trans ?_
    rw [List.map_append]
    rfl
  unfold Shortlist.add
  rw [hnew, if_neg Bool.false_ne_true]
  refine ⟨⟨?_, ?_⟩, rfl, fun e he => ?_⟩
  · have hcapped := h.capped.insert hkeys
    rw [← hmap, ← List.map_take] at hcapped
    exact hcapped
  · rw [List.map_cons, List.nodup_cons]
    refine ⟨fun hmem => ?_, h.ids⟩
    obtain ⟨b, hb, heq⟩ := List.mem_map.mp hmem
    exact hfresh b hb heq
  · obtain hold | hone := List.mem_append.mp ((List.mergeSort_perm _ _).mem_iff.mp (List.mem_of_mem_take he))
    · exact .inl hold
    · exact .inr (List.mem_singleton.mp hone)

theorem add_known (h : s.known.any (fun b => decide (b.id = c.id)) = true) : s.add c = s := by
  unfold Shortlist.add
  rw [if_pos h]

/-- One entry is changed. -/
def change (s : Shortlist) (id : KadId) (f : ShortlistEntry → ShortlistEntry) : Shortlist := { s with entries := changed id f s.entries }

theorem Ok.change (h : s.Ok) (hf : ∀ e, (f e).contact = e.contact) (id : KadId) : (s.change id f).Ok := by
  refine ⟨?_, h.ids⟩
  unfold Shortlist.change
  rw [contacts_changed hf]
  exact h.capped

theorem Ok.changeState (h : s.Ok) (id : KadId) (state : NodeState) : (s.change id fun e => { e with state := state }).Ok :=
  h.change (f := fun e => { e with state := state }) (fun _ => rfl) id

theorem Ok.changeSent (h : s.Ok) (id : KadId) : (s.change id fun e => { e with sourceSent := true }).Ok :=
  h.change (f := fun e => { e with sourceSent := true }) (fun _ => rfl) id

theorem Ok.setState (h : s.Ok) (id : KadId) (state : NodeState) : s.setState id state = s.change id fun e => { e with state := state } := by
  unfold Shortlist.setState Shortlist.change
  rw [changeEntry_eq h.nodup_ids]

theorem Ok.nextUnqueried (h : s.Ok) (hnext : s.nextUnqueried = some (c, l)) :
    (∃ e ∈ s.entries, e.contact = c ∧ e.state = .unqueried) ∧ l = s.change c.id fun e => { e with state := .inFlight } := by
  obtain ⟨⟨c', entries⟩, hchange, heq⟩ := Option.map_eq_some_iff.mp hnext
  cases heq
  obtain ⟨before, e, after, hentries, rfl, rfl, hp⟩ := changeFirst_eq_some hchange
  refine ⟨⟨e, hentries ▸ List.mem_append_right _ List.mem_cons_self, rfl, of_decide_eq_true hp⟩, ?_⟩
  have hnodup := h.nodup_ids
  rw [hentries] at hnodup
  unfold Shortlist.change
  rw [hentries, changed_split hnodup]

theorem nextUnqueried_none (hnext : s.nextUnqueried = none) : ∀ e ∈ s.window, e.state ≠ .unqueried := fun e he =>
  of_decide_eq_false (changeFirst_eq_none (Option.map_eq_none_iff.mp hnext) e he)

/-- Whether an entry waits for a source request. -/
def sourceWaits (e : ShortlistEntry) : Bool := e.state = .responded && !e.sourceSent && minSourceSearchKadVersion ≤ e.contact.version

theorem Ok.nextSourceCandidate (h : s.Ok) (hnext : s.nextSourceCandidate = some (c, l)) :
    (∃ e ∈ s.entries, e.contact = c ∧ sourceWaits e = true) ∧ l = s.change c.id fun e => { e with sourceSent := true } := by
  obtain ⟨⟨c', entries⟩, hchange, heq⟩ := Option.map_eq_some_iff.mp hnext
  cases heq
  obtain ⟨before, e, after, hentries, rfl, rfl, hp⟩ := changeFirst_eq_some hchange
  refine ⟨⟨e, hentries ▸ List.mem_append_right _ List.mem_cons_self, rfl, hp⟩, ?_⟩
  have hnodup := h.nodup_ids
  rw [hentries] at hnodup
  unfold Shortlist.change
  rw [hentries, changed_split hnodup]

theorem nextSourceCandidate_none (hnext : s.nextSourceCandidate = none) : ∀ e ∈ s.window, sourceWaits e = false := fun e he =>
  changeFirst_eq_none (Option.map_eq_none_iff.mp hnext) e he

/-- A change that is not one of states leaves the window where it is. -/
theorem mem_window_change (hf : ∀ e, (f e).state = e.state) {e : ShortlistEntry} (he : e ∈ (s.change id f).window) :
    ∃ e' ∈ s.window, e = if e'.contact.id = id then f e' else e' := by
  unfold Shortlist.window Shortlist.change changed at he
  have hfilter : ((s.entries.map fun e => if e.contact.id = id then f e else e).filter fun e => e.state ≠ .failed) =
      (s.entries.filter fun e => e.state ≠ .failed).map fun e => if e.contact.id = id then f e else e := by
    rw [List.filter_map]
    refine congrArg (List.map _) (List.filter_congr fun e _ => ?_)
    change decide ((if e.contact.id = id then f e else e).state ≠ .failed) = _
    split
    · rw [hf]
    · rfl
  dsimp only at he
  rw [hfilter, ← List.map_take] at he
  obtain ⟨e', he', heq⟩ := List.mem_map.mp he
  exact ⟨e', he', heq.symm⟩

end Shortlist

/-! ## The lookup -/

namespace Lookup

variable {s : Lookup} {config : LookupConfig} {target : KadId}

/-- The state of an entry, by what has become of the query of its node. -/
def stateOf (s : Lookup) (id : KadId) : NodeState :=
  if id ∉ s.asked then .unqueried else if id ∈ s.answered then .responded else if id ∈ s.failed then .failed else .inFlight

/-- The node of a routing request. -/
def node : Query → Option KadId
  | .routing id => some id
  | .source => none

/-- The nodes whose answer is awaited. -/
def awaited (s : Lookup) : List KadId := s.inflight.filterMap node

structure Ok (s : Lookup) (config : LookupConfig) (target : KadId) : Prop where
  list : s.shortlist.Ok
  target : s.shortlist.target = target
  limit : s.tracker.maxQueries = config.maxQueries
  queried : s.tracker.queried = s.asked
  nodup_asked : s.asked.Nodup
  asked_le : s.asked.length ≤ config.maxQueries
  fates : s.asked.Perm (s.awaited ++ (s.answered ++ s.failed))
  known_asked : ∀ id ∈ s.asked, ∃ c ∈ s.shortlist.known, c.id = id
  states : ∀ e ∈ s.shortlist.entries, e.state = s.stateOf e.contact.id
  nodup_sourced : s.sourced.Nodup
  known_sourced : ∀ id ∈ s.sourced, ∃ c ∈ s.shortlist.known, c.id = id
  sent : ∀ e ∈ s.shortlist.entries, e.sourceSent = true ↔ e.contact.id ∈ s.sourced
  sources : s.sourced.length = s.sourceQueries
  sources_le : s.sourceQueries ≤ config.sourceLimit
  routing_count : s.routingInflight = s.awaited.length
  source_count : s.sourceInflight = s.inflight.count .source
  replies : s.replies + s.inflight.length = s.asked.length + s.sourced.length

/-- A new contact keeps all of it. -/
theorem Ok.add (h : s.Ok config target) (c : Contact) : Ok { s with shortlist := s.shortlist.add c } config target := by
  cases hknown : s.shortlist.known.any fun b => decide (b.id = c.id) with
  | true =>
    rw [Shortlist.add_known hknown]
    exact h
  | false =>
    obtain ⟨hlist, hadd, hentries⟩ := h.list.add hknown
    have hfresh : ∀ b ∈ s.shortlist.known, b.id ≠ c.id := by
      intro b hb heq
      rw [List.any_eq_false] at hknown
      exact hknown b hb (decide_eq_true heq)
    have hgrown : ∀ id, (∃ b ∈ s.shortlist.known, b.id = id) → ∃ b ∈ (s.shortlist.add c).known, b.id = id := by
      rintro id ⟨b, hb, heq⟩
      rw [hadd]
      exact ⟨b, List.mem_cons_of_mem c hb, heq⟩
    have htarget : (s.shortlist.add c).target = s.shortlist.target := by
      unfold Shortlist.add
      rw [hknown]
      rfl
    refine { h with
      list := hlist, target := htarget.trans h.target, known_asked := fun id hid => hgrown id (h.known_asked id hid)
      known_sourced := fun id hid => hgrown id (h.known_sourced id hid), states := fun e he => ?_, sent := fun e he => ?_ }
    · obtain hold | rfl := hentries e he
      · exact h.states e hold
      · have hnot : c.id ∉ s.asked := fun hid => by
          obtain ⟨b, hb, heq⟩ := h.known_asked _ hid
          exact hfresh b hb heq
        exact (if_pos hnot).symm
    · obtain hold | rfl := hentries e he
      · exact h.sent e hold
      · refine ⟨nofun, fun hid => ?_⟩
        obtain ⟨b, hb, heq⟩ := h.known_sourced _ hid
        exact absurd heq (hfresh b hb)

/-- Contacts that are added one after the other, or passed over. -/
theorem Ok.foldl {α : Type} {L : List α} {g : Shortlist → α → Shortlist} (hg : ∀ l a, g l a = l ∨ ∃ c, g l a = l.add c) (h : s.Ok config target) :
    Ok { s with shortlist := L.foldl g s.shortlist } config target := by
  induction L generalizing s with
  | nil => exact h
  | cons a rest ih =>
    have hone : Ok { s with shortlist := g s.shortlist a } config target := by
      obtain hsame | ⟨c, hadd⟩ := hg s.shortlist a
      · rw [hsame]
        exact h
      · rw [hadd]
        exact h.add c
    exact ih hone

theorem Ok.hear (h : s.Ok config target) (localId : KadId) (clock : KadWireContact → ℕ × ℕ) (packet : KadPacket) :
    Ok { s with shortlist := s.shortlist.hear localId clock packet } config target := by
  unfold Shortlist.hear
  split
  · exact h
  split
  · exact h
  refine h.foldl fun l wireContact => ?_
  dsimp only
  split
  · exact .inr ⟨_, rfl⟩
  · exact .inl rfl

theorem ok_begin (config : LookupConfig) (target : KadId) (initial : List Contact) : (begin config target initial).Ok config target := by
  have hempty : Ok { begin config target initial with shortlist := ⟨target, [], []⟩ } config target := {
    list := .empty target, target := rfl, limit := rfl, queried := rfl, nodup_asked := .nil, asked_le := Nat.zero_le _, fates := .refl _
    known_asked := nofun, states := nofun, nodup_sourced := .nil, known_sourced := nofun, sent := nofun, sources := rfl, sources_le := Nat.zero_le _
    routing_count := rfl, source_count := rfl, replies := rfl }
  exact hempty.foldl fun l c => .inr ⟨c, rfl⟩

section Fates

variable {id : KadId}

theorem Ok.asked_of_fate (h : s.Ok config target) : (id ∈ s.awaited → id ∈ s.asked) ∧ (id ∈ s.answered → id ∈ s.asked) ∧
    (id ∈ s.failed → id ∈ s.asked) :=
  ⟨fun hid => h.fates.mem_iff.mpr (List.mem_append_left _ hid),
    fun hid => h.fates.mem_iff.mpr (List.mem_append_right _ (List.mem_append_left _ hid)),
    fun hid => h.fates.mem_iff.mpr (List.mem_append_right _ (List.mem_append_right _ hid))⟩

/-- No node has two fates. -/
theorem Ok.not_both (h : s.Ok config target) : (id ∈ s.awaited → id ∉ s.answered ∧ id ∉ s.failed) ∧ (id ∈ s.answered → id ∉ s.failed) := by
  have hnodup := h.fates.nodup_iff.mp h.nodup_asked
  rw [List.nodup_append] at hnodup
  obtain ⟨-, hrest, hapart⟩ := hnodup
  rw [List.nodup_append] at hrest
  refine ⟨fun hid => ⟨fun hmem => ?_, fun hmem => ?_⟩, fun hid hmem => hrest.2.2 id hid id hmem rfl⟩
  · exact hapart id hid id (List.mem_append_left _ hmem) rfl
  · exact hapart id hid id (List.mem_append_right _ hmem) rfl

theorem stateOf_unqueried : s.stateOf id = .unqueried ↔ id ∉ s.asked := by
  unfold stateOf
  split
  · rename_i hnot
    exact iff_of_true rfl hnot
  split
  · rename_i hasked _
    exact iff_of_false nofun hasked
  split
  · rename_i hasked _ _
    exact iff_of_false nofun hasked
  · rename_i hasked _ _
    exact iff_of_false nofun hasked

theorem stateOf_congr {s' : Lookup} (hasked : id ∈ s'.asked ↔ id ∈ s.asked) (hanswered : id ∈ s'.answered ↔ id ∈ s.answered)
    (hfailed : id ∈ s'.failed ↔ id ∈ s.failed) : s'.stateOf id = s.stateOf id := by
  unfold stateOf
  simp only [hasked, hanswered, hfailed]

theorem Ok.stateOf_failed (h : s.Ok config target) : s.stateOf id = .failed ↔ id ∈ s.failed := by
  unfold stateOf
  constructor
  · intro hstate
    split at hstate
    · cases hstate
    split at hstate
    · cases hstate
    split at hstate
    · assumption
    · cases hstate
  · intro hfailed
    rw [if_neg (not_not.mpr (h.asked_of_fate.2.2 hfailed)), if_neg fun hanswered => h.not_both.2 hanswered hfailed, if_pos hfailed]

/-- An entry of the shortlist with one id changed. -/
theorem mem_change {l : Shortlist} {f : ShortlistEntry → ShortlistEntry} {e : ShortlistEntry} (he : e ∈ (l.change id f).entries) :
    ∃ e' ∈ l.entries, e = if e'.contact.id = id then f e' else e' := by
  obtain ⟨e', he', heq⟩ := List.mem_map.mp he
  exact ⟨e', he', heq.symm⟩

/-- The state of one entry follows what becomes of its node. -/
theorem Ok.states_change (h : s.Ok config target) {s' : Lookup} {state : NodeState} (hone : s'.stateOf id = state)
    (hother : ∀ other, other ≠ id → s'.stateOf other = s.stateOf other) :
    ∀ e ∈ (s.shortlist.change id fun e => { e with state := state }).entries, e.state = s'.stateOf e.contact.id := by
  intro e he
  obtain ⟨e', he', rfl⟩ := mem_change he
  split
  · rename_i hid
    change state = s'.stateOf e'.contact.id
    rw [hid, hone]
  · rename_i hid
    rw [hother _ hid]
    exact h.states e' he'

theorem Ok.sent_change (h : s.Ok config target) (state : NodeState) :
    ∀ e ∈ (s.shortlist.change id fun e => { e with state := state }).entries, e.sourceSent = true ↔ e.contact.id ∈ s.sourced := by
  intro e he
  obtain ⟨e', he', rfl⟩ := mem_change he
  split
  · exact h.sent e' he'
  · exact h.sent e' he'

end Fates

/-! ### Sending requests -/

section Sending

variable {c : Contact} {l : Shortlist}

/-- The next node has not been asked. -/
theorem Ok.not_asked (h : s.Ok config target) (hnext : s.shortlist.nextUnqueried = some (c, l)) : c.id ∉ s.asked := by
  obtain ⟨⟨e, he, rfl, hstate⟩, -⟩ := h.list.nextUnqueried hnext
  rw [h.states e he] at hstate
  exact stateOf_unqueried.mp hstate

/-- When it is refused, the budget is used up, and everything is as it was. -/
theorem Ok.refused (h : s.Ok config target) (hnext : s.shortlist.nextUnqueried = some (c, l)) {tracker : LookupTracker}
    (hmark : s.tracker.markQueried c.id = (false, tracker)) :
    config.maxQueries ≤ s.asked.length ∧ { s with shortlist := l.setState c.id .unqueried } = s := by
  have hnot := h.not_asked hnext
  unfold LookupTracker.markQueried at hmark
  rw [h.queried, h.limit] at hmark
  split at hmark
  · rename_i hfull
    refine ⟨hfull.resolve_right hnot, ?_⟩
    obtain ⟨-, rfl⟩ := h.list.nextUnqueried hnext
    have hlist : (s.shortlist.change c.id fun e => { e with state := .inFlight }).setState c.id .unqueried = s.shortlist := by
      rw [(h.list.changeState c.id .inFlight).setState]
      unfold Shortlist.change changed
      dsimp only
      rw [List.map_map]
      have hsame : s.shortlist.entries.map ((fun e => if e.contact.id = c.id then { e with state := .unqueried } else e) ∘
          fun e => if e.contact.id = c.id then { e with state := .inFlight } else e) = s.shortlist.entries := by
        refine (List.map_congr_left fun e he => ?_).trans (List.map_id _)
        rw [Function.comp_apply]
        split
        · rename_i hid
          have hstate := h.states e he
          rw [hid, stateOf_unqueried.mpr hnot] at hstate
          rw [← hstate]
          rfl
        · rfl
      rw [hsame]
    rw [hlist]
  · cases hmark

theorem Ok.asking (h : s.Ok config target) (hnext : s.shortlist.nextUnqueried = some (c, l)) {tracker : LookupTracker}
    (hmark : s.tracker.markQueried c.id = (true, tracker)) :
    Ok { s with shortlist := l, tracker := tracker, routingInflight := s.routingInflight + 1, inflight := .routing c.id :: s.inflight,
                asked := c.id :: s.asked } config target := by
  have hnot := h.not_asked hnext
  obtain ⟨⟨e, he, hcontact, -⟩, rfl⟩ := h.list.nextUnqueried hnext
  unfold LookupTracker.markQueried at hmark
  split at hmark
  · cases hmark
  rename_i hroom
  cases hmark
  rw [h.queried, h.limit, not_or, not_le] at hroom
  refine { h with
    list := h.list.changeState c.id .inFlight, queried := congrArg (c.id :: ·) h.queried, nodup_asked := List.nodup_cons.mpr ⟨hnot, h.nodup_asked⟩
    asked_le := hroom.1, fates := h.fates.cons c.id, states := h.states_change ?_ fun other hother => ?_, sent := h.sent_change .inFlight
    known_asked := List.forall_mem_cons.mpr ⟨⟨c, h.list.capped.subset (hcontact ▸ List.mem_map_of_mem he), rfl⟩, h.known_asked⟩
    routing_count := congrArg (· + 1) h.routing_count, source_count := ?_, replies := ?_ }
  · unfold stateOf
    rw [if_neg (not_not.mpr List.mem_cons_self), if_neg fun hid => hnot (h.asked_of_fate.2.1 hid), if_neg fun hid => hnot (h.asked_of_fate.2.2 hid)]
  · exact stateOf_congr ⟨fun hin => (List.mem_cons.mp hin).resolve_left hother, List.mem_cons_of_mem _⟩ .rfl .rfl
  · have hne : Query.routing c.id ≠ .source := nofun
    change s.sourceInflight = (Query.routing c.id :: s.inflight).count .source
    rw [List.count_cons_of_ne hne, h.source_count]
  · have hreplies := h.replies
    change s.replies + (s.inflight.length + 1) = s.asked.length + 1 + s.sourced.length
    omega

/-- The loop of routing requests has come to its end. -/
def RoutingDone (s : Lookup) (config : LookupConfig) : Prop :=
  config.alpha ≤ s.routingInflight ∨ config.maxQueries ≤ s.asked.length ∨ ∀ e ∈ s.shortlist.window, e.state ≠ .unqueried

theorem Ok.askRouting {free : ℕ} (h : s.Ok config target) (hfree : config.alpha ≤ s.routingInflight + free) :
    (Lookup.askRouting free s).Ok config target ∧ (Lookup.askRouting free s).RoutingDone config := by
  induction free generalizing s with
  | zero => exact ⟨h, .inl hfree⟩
  | succ free ih =>
    rw [Lookup.askRouting]
    split
    · rename_i hnext
      exact ⟨h, .inr (.inr (Shortlist.nextUnqueried_none hnext))⟩
    · rename_i c l hnext
      split
      · rename_i tracker hmark
        obtain ⟨hfull, hsame⟩ := h.refused hnext hmark
        rw [hsame]
        exact ⟨h, .inr (.inl hfull)⟩
      · rename_i tracker hmark
        exact ih (h.asking hnext hmark) (by dsimp only; omega)

theorem Ok.sourcing (h : s.Ok config target) (hnext : s.shortlist.nextSourceCandidate = some (c, l)) (hroom : s.sourceQueries < config.sourceLimit) :
    Ok { s with shortlist := l, sourceQueries := s.sourceQueries + 1, sourceInflight := s.sourceInflight + 1, inflight := .source :: s.inflight,
                sourced := c.id :: s.sourced } config target := by
  obtain ⟨⟨e, he, hcontact, hwaits⟩, rfl⟩ := h.list.nextSourceCandidate hnext
  have hnot : c.id ∉ s.sourced := by
    intro hid
    rw [← hcontact] at hid
    unfold Shortlist.sourceWaits at hwaits
    rw [(h.sent e he).mpr hid, Bool.not_true, Bool.and_false, Bool.false_and] at hwaits
    cases hwaits
  refine { h with
    list := h.list.changeSent c.id, nodup_sourced := List.nodup_cons.mpr ⟨hnot, h.nodup_sourced⟩, states := fun e he => ?_
    known_sourced := List.forall_mem_cons.mpr ⟨⟨c, h.list.capped.subset (hcontact ▸ List.mem_map_of_mem he), rfl⟩, h.known_sourced⟩
    sent := fun e he => ?_, sources := congrArg (· + 1) h.sources, sources_le := hroom, source_count := ?_, replies := ?_ }
  · obtain ⟨e', he', rfl⟩ := mem_change he
    split
    · exact h.states e' he'
    · exact h.states e' he'
  · obtain ⟨e', he', rfl⟩ := mem_change he
    split
    · rename_i hid
      exact iff_of_true rfl (hid ▸ List.mem_cons_self)
    · rename_i hid
      rw [h.sent e' he']
      exact ⟨List.mem_cons_of_mem _, fun hin => (List.mem_cons.mp hin).resolve_left hid⟩
  · change s.sourceInflight + 1 = (Query.source :: s.inflight).count .source
    rw [List.count_cons_self, h.source_count]
  · have hreplies := h.replies
    change s.replies + (s.inflight.length + 1) = s.asked.length + (s.sourced.length + 1)
    omega

/-- The loop of source requests has come to its end. -/
def SourcesDone (s : Lookup) (config : LookupConfig) : Prop :=
  config.alpha ≤ s.sourceInflight ∨ config.sourceLimit ≤ s.sourceQueries ∨ ∀ e ∈ s.shortlist.window, Shortlist.sourceWaits e = false

theorem Ok.askSources {free : ℕ} (h : s.Ok config target) (hdone : s.RoutingDone config) (hroom : s.sourceQueries + free ≤ config.sourceLimit)
    (hfree : config.alpha ≤ s.sourceInflight + free ∨ config.sourceLimit ≤ s.sourceQueries + free) :
    (Lookup.askSources free s).Ok config target ∧ (Lookup.askSources free s).RoutingDone config ∧ (Lookup.askSources free s).SourcesDone config := by
  induction free generalizing s with
  | zero => exact ⟨h, hdone, hfree.imp_right .inl⟩
  | succ free ih =>
    rw [Lookup.askSources]
    split
    · rename_i hnext
      exact ⟨h, hdone, .inr (.inr (Shortlist.nextSourceCandidate_none hnext))⟩
    · rename_i c l hnext
      refine ih (h.sourcing hnext (by omega)) ?_ (by dsimp only; omega) (by dsimp only; omega)
      obtain ⟨-, rfl⟩ := h.list.nextSourceCandidate hnext
      refine hdone.imp_right (Or.imp_right fun hwindow e he => ?_)
      obtain ⟨e', he', rfl⟩ := Shortlist.mem_window_change (f := fun e => { e with sourceSent := true }) (fun _ => rfl) he
      split
      · exact hwindow e' he'
      · exact hwindow e' he'

theorem Ok.fill (h : s.Ok config target) : (s.fill config).Ok config target ∧ (s.fill config).RoutingDone config ∧
    (s.fill config).SourcesDone config := by
  have hfree : config.alpha ≤ s.routingInflight + (config.alpha - s.routingInflight) := by omega
  obtain ⟨hasked, hdone⟩ := h.askRouting hfree
  have hle := hasked.sources_le
  exact hasked.askSources hdone (by omega) (by omega)

end Sending

/-! ### Replies -/

section Replies

variable {localId : KadId} {clock : KadWireContact → ℕ × ℕ} {query : Query} {id : KadId}

/-- One node fewer is awaited. -/
theorem awaited_erase (hquery : .routing id ∈ s.inflight) : s.awaited.Perm (id :: (s.inflight.erase (.routing id)).filterMap node) :=
  (List.perm_cons_erase hquery).filterMap node

theorem Ok.replies_erase (h : s.Ok config target) (hquery : query ∈ s.inflight) :
    s.replies + 1 + (s.inflight.erase query).length = s.asked.length + s.sourced.length := by
  have hreplies := h.replies
  have hlength := (List.perm_cons_erase hquery).length_eq
  rw [List.length_cons] at hlength
  omega

/-- The reply to a routing request, with or without a packet, before the contacts in it are read. -/
theorem Ok.reply (h : s.Ok config target) (hquery : .routing id ∈ s.inflight) (state : NodeState) {answered failed : List KadId}
    (hfate : state = .responded ∧ answered = id :: s.answered ∧ failed = s.failed ∨ state = .failed ∧ answered = s.answered ∧ failed = id :: s.failed) :
    Ok { s with inflight := s.inflight.erase (.routing id), replies := s.replies + 1, routingInflight := s.routingInflight - 1,
                shortlist := s.shortlist.setState id state, answered := answered, failed := failed } config target := by
  have hperm := awaited_erase hquery
  have hawaited : id ∈ s.awaited := hperm.mem_iff.mpr List.mem_cons_self
  obtain ⟨hanswered, hfailed⟩ := h.not_both.1 hawaited
  have hasked := h.asked_of_fate.1 hawaited
  have hcount : s.inflight.count .source = (s.inflight.erase (.routing id)).count .source := by
    have hne : Query.routing id ≠ .source := nofun
    rw [(List.perm_cons_erase hquery).count_eq, List.count_cons_of_ne hne]
  have hfates : s.asked.Perm ((s.inflight.erase (.routing id)).filterMap node ++ (answered ++ failed)) := by
    refine (h.fates.trans (hperm.append_right _)).trans ?_
    obtain ⟨-, rfl, rfl⟩ | ⟨-, rfl, rfl⟩ := hfate
    · exact List.perm_middle.symm
    · rw [← List.append_assoc, ← List.append_assoc]
      exact List.perm_middle.symm
  rw [h.list.setState]
  refine { h with
    list := h.list.changeState id state, fates := hfates, states := h.states_change ?_ fun other hother => ?_, sent := h.sent_change state
    routing_count := ?_, source_count := h.source_count.trans hcount, replies := h.replies_erase hquery }
  · unfold stateOf
    rw [if_neg (not_not.mpr hasked)]
    obtain ⟨rfl, rfl, rfl⟩ | ⟨rfl, rfl, rfl⟩ := hfate
    · rw [if_pos List.mem_cons_self]
    · rw [if_neg hanswered, if_pos List.mem_cons_self]
  · have hskip : ∀ L : List KadId, other ∈ id :: L ↔ other ∈ L := fun L =>
      ⟨fun hin => (List.mem_cons.mp hin).resolve_left hother, List.mem_cons_of_mem _⟩
    obtain ⟨-, rfl, rfl⟩ | ⟨-, rfl, rfl⟩ := hfate
    · exact stateOf_congr .rfl (hskip _) .rfl
    · exact stateOf_congr .rfl .rfl (hskip _)
  · have hlength := hperm.length_eq
    have hrouting := h.routing_count
    rw [List.length_cons] at hlength
    change s.routingInflight - 1 = ((s.inflight.erase (.routing id)).filterMap node).length
    omega

theorem Ok.receive (h : s.Ok config target) (hquery : query ∈ s.inflight) (packet : Option KadPacket) :
    (s.receive localId clock query packet).Ok config target := by
  cases query with
  | routing id =>
    cases packet with
    | some packet => exact (h.reply hquery .responded (.inl ⟨rfl, rfl, rfl⟩)).hear localId clock packet
    | none => exact h.reply hquery .failed (.inr ⟨rfl, rfl, rfl⟩)
  | source =>
    have hperm := List.perm_cons_erase hquery
    have hawaited : s.awaited.Perm ((s.inflight.erase .source).filterMap node) := hperm.filterMap node
    refine { h with
      fates := h.fates.trans (hawaited.append_right _), routing_count := h.routing_count.trans hawaited.length_eq, source_count := ?_
      replies := h.replies_erase hquery }
    change s.sourceInflight - 1 = (s.inflight.erase .source).count .source
    rw [List.count_erase_self, h.source_count]

end Replies

/-! ### Runs -/

/-- A lookup from its first contacts on, after some replies. -/
def Reachable (config : LookupConfig) (localId target : KadId) (initial : List Contact) : Lookup → Prop :=
  Reach (fun s => s = (begin config.bounded target initial).fill config.bounded) fun s s' =>
    ∃ clock, ∃ query ∈ s.inflight, ∃ packet, s' = (s.receive localId clock query packet).fill config.bounded

/-- What each call keeps holds after every run. -/
theorem Reachable.ok {localId : KadId} {initial : List Contact} (h : Reachable config localId target initial s) :
    s.Ok config.bounded target ∧ s.RoutingDone config.bounded ∧ s.SourcesDone config.bounded := by
  refine @Reach.invariant _ _ _ (fun s => s.Ok config.bounded target ∧ s.RoutingDone config.bounded ∧ s.SourcesDone config.bounded) (fun s hinit => ?_)
    (fun s s' hok ⟨clock, query, hquery, packet, hstep⟩ => ?_) _ h
  · rw [hinit]
    exact (ok_begin config.bounded target initial).fill
  · rw [hstep]
    exact (hok.1.receive hquery packet).fill

/-! ### The nearest contacts -/

/-- The contact is one of the so many nearest to the target among those that are known and have not failed. -/
def Nearest (s : Lookup) (target : KadId) (c : Contact) : Prop :=
  c ∈ s.shortlist.known ∧ c.id ∉ s.failed ∧
    (s.shortlist.known.filter fun b => b.id ∉ s.failed && target.compareDistance b.id c.id == .lt).length < bucketSize

/-- Not more contacts fail than are asked, so there is room in the shortlist for the nearest of the others. -/
theorem Ok.window_of_nearest (h : s.Ok config target) (hqueries : config.maxQueries ≤ maxLookupQueries) {c : Contact} (hc : s.Nearest target c) :
    ∃ e ∈ s.shortlist.window, e.contact = c := by
  obtain ⟨hknown, hfailed, hnear⟩ := hc
  have hwindow : s.shortlist.window.map (·.contact) = ((s.shortlist.entries.map (·.contact)).filter fun b => b.id ∉ s.failed).take bucketSize := by
    unfold Shortlist.window
    rw [List.map_take, List.filter_map]
    refine congrArg (List.take bucketSize) (congrArg (List.map _) (List.filter_congr fun e he => ?_))
    rw [h.states e he]
    exact decide_eq_decide.mpr (not_congr h.stateOf_failed)
  have hfew : ((s.shortlist.entries.map (·.contact)).filter fun b => !decide (b.id ∉ s.failed)).length + bucketSize ≤ maxShortlist := by
    have hids : (((s.shortlist.entries.map (·.contact)).filter fun b => !decide (b.id ∉ s.failed)).map (·.id)).Nodup := by
      refine List.Nodup.sublist (List.filter_sublist.map _) ?_
      rw [List.map_map]
      exact h.list.nodup_ids
    have hle := (hids.subperm fun id hid => by
      obtain ⟨b, hb, rfl⟩ := List.mem_map.mp hid
      have hmem := (List.mem_filter.mp hb).2
      rw [decide_not, Bool.not_not] at hmem
      exact (of_decide_eq_true hmem : b.id ∈ s.failed)).length_le
    have hlength := h.fates.length_eq
    have hasked := h.asked_le
    rw [List.length_append, List.length_append] at hlength
    rw [List.length_map] at hle
    unfold maxLookupQueries at hqueries
    unfold bucketSize maxShortlist
    omega
  have hcapped := h.list.capped
  rw [h.target] at hcapped
  have hin := hcapped.mem_take hfew hknown (decide_eq_true hfailed) hnear
  rw [← hwindow] at hin
  exact List.mem_map.mp hin

end Lookup

end Kad

end Risuko
