import Risuko.Lib.Lists
import Risuko.Torrent.Trackers

/-!
# Trackers: the walk of `pick` and the tracker it stays with

`scan` turns to a URL exactly when the instant it gave has come. `Distinct` says that no tier holds a URL twice, which the collected
tiers keep; `Ready` that the announce under way is to a URL that is still there; and `StaysWith` that the URL that last answered
leads the tier the walk starts from.
-/

namespace Risuko

namespace TrackerRunState

variable {now : Nat} {L : List (Nat × Nat × TrackerUrlState)} {s : TrackerRunState}

/-! ## The instant `pick` gives -/

/-- The instant is not later than one found before. -/
theorem scan_idle_le {m : Nat} {u : Option Nat} (h : scan now (some m) L = .idle u) :
    ∃ v, u = some v ∧ v ≤ m := by
  induction L generalizing m with
  | nil =>
    cases h
    exact ⟨m, rfl, le_refl _⟩
  | cons c rest ih =>
    obtain ⟨tier, index, entry⟩ := c
    unfold scan at h
    split at h
    · exact ih h
    split at h
    · cases h
    simp only [Option.elim_some] at h
    split at h
    · cases h
      exact ⟨_, rfl, min_le_left _ _⟩
    · obtain ⟨v, hv, hle⟩ := ih h
      exact ⟨v, hv, hle.trans (min_le_left _ _)⟩

/-- Before the instant nothing is due. -/
theorem scan_before {t : Nat} {earliest : Option Nat} {u : Option Nat}
    (h : scan now earliest L = .idle u) (ht : ∀ v, u = some v → t < v) : scan t earliest L = .idle u := by
  induction L generalizing earliest with
  | nil => exact h
  | cons c rest ih =>
    obtain ⟨tier, index, entry⟩ := c
    unfold scan at h ⊢
    split at h
    · rename_i hd
      rw [if_pos hd]
      exact ih h
    rename_i hd
    rw [if_neg hd]
    split at h
    · cases h
    simp only at h ⊢
    -- the instant is at most this entry's, so that the entry is not due at `t`
    have hle : ∃ v, u = some v ∧ v ≤ entry.nextAt := by
      have hmin : earliest.elim entry.nextAt (fun at_ => min at_ entry.nextAt) ≤ entry.nextAt := by
        cases earliest with
        | none => exact le_refl _
        | some m => exact min_le_right _ _
      split at h
      · cases h
        exact ⟨_, rfl, hmin⟩
      · obtain ⟨v, hv, hvm⟩ := scan_idle_le h
        exact ⟨v, hv, hvm.trans hmin⟩
    obtain ⟨v, hv, hve⟩ := hle
    have htv := ht v hv
    rw [if_neg (by omega)]
    split at h
    · rename_i hw
      rw [if_pos hw]
      exact h
    · rename_i hw
      rw [if_neg hw]
      exact ih h

/-- At the instant a URL is due, unless the instant was found before. -/
theorem scan_after {t v : Nat} {earliest : Option Nat}
    (h : scan now earliest L = .idle (some v)) (ht : v ≤ t) :
    (∃ tier index, ∀ e, scan t e L = .due tier index) ∨ earliest = some v := by
  induction L generalizing earliest with
  | nil =>
    cases h
    exact .inr rfl
  | cons c rest ih =>
    obtain ⟨tier, index, entry⟩ := c
    unfold scan at h
    split at h
    · rename_i hd
      refine (ih h).imp_left (fun ⟨t', i', hdue⟩ => ⟨t', i', fun e => ?_⟩)
      unfold scan
      rw [if_pos hd]
      exact hdue e
    rename_i hd
    split at h
    · cases h
    by_cases hdue : entry.nextAt ≤ t
    · left
      refine ⟨tier, index, fun e => ?_⟩
      unfold scan
      rw [if_neg hd, if_pos hdue]
    · have hold : earliest.elim entry.nextAt (fun at_ => min at_ entry.nextAt) = v → earliest = some v := by
        intro hv
        cases earliest with
        | none =>
          simp only [Option.elim_none] at hv
          omega
        | some m =>
          simp only [Option.elim_some] at hv
          congr 1
          omega
      simp only at h
      split at h
      · cases h
        exact .inr (hold rfl)
      · rename_i hw
        rcases ih h with ⟨t', i', hrest⟩ | hv
        · left
          refine ⟨t', i', fun e => ?_⟩
          unfold scan
          rw [if_neg hd, if_neg hdue]
          simp only
          rw [if_neg hw]
          exact hrest _
        · exact .inr (hold (Option.some.inj hv))

/-! ## Distinct URLs -/

theorem unseen_nodup (seen urls : List String) : (unseen seen urls).1.Nodup ∧ ∀ url ∈ (unseen seen urls).1, url ∉ seen := by
  induction urls generalizing seen with
  | nil => exact ⟨List.nodup_nil, fun _ h => (by cases h)⟩
  | cons url urls ih =>
    unfold unseen
    split
    · exact ih seen
    · rename_i hnew
      obtain ⟨hnodup, hfresh⟩ := ih (url :: seen)
      refine ⟨List.nodup_cons.mpr ⟨fun hmem => hfresh url hmem (List.mem_cons_self ..), hnodup⟩, ?_⟩
      intro u hu
      rcases List.mem_cons.mp hu with rfl | hrest
      · simpa using hnew
      · exact fun hs => hfresh u hrest (List.mem_cons_of_mem _ hs)

theorem swapAt_perm (urls : List String) (i j : Nat) : (swapAt urls i j).Perm urls := by
  unfold swapAt
  split
  · rename_i a b hi hj
    obtain ⟨hil, rfl⟩ := List.getElem?_eq_some_iff.mp hi
    obtain ⟨hjl, rfl⟩ := List.getElem?_eq_some_iff.mp hj
    exact List.set_set_perm hil hjl
  · exact List.Perm.refl _

theorem shuffleTier_perm (random : Nat → Nat) (urls : List String) : (shuffleTier random urls).Perm urls := by
  have hfold : ∀ (is : List Nat) (L : List String),
      (is.foldl (fun urls i => swapAt urls i (random i % (i + 1))) L).Perm L := by
    intro is
    induction is with
    | nil => exact fun L => List.Perm.refl L
    | cons i is ih => exact fun L => (ih _).trans (swapAt_perm L i _)
  exact hfold _ urls

theorem dedupTiers_nodup (random : Nat → Nat → Nat) (n : Nat) (seen : List String) (tiers : List (List String)) :
    ∀ tier ∈ dedupTiers random n seen tiers, tier.Nodup := by
  induction tiers generalizing n seen with
  | nil =>
    intro tier h
    cases h
  | cons t tiers ih =>
    intro tier h
    rcases List.mem_cons.mp h with rfl | hrest
    · exact (shuffleTier_perm (random n) _).nodup_iff.mpr (unseen_nodup seen t).1
    · exact ih (n + 1) _ tier hrest

/-- The tiers collected from the metadata hold no URL twice. -/
theorem collectAnnounceTiers_nodup (random random' : Nat → Nat → Nat) (obfuscated declared : List (List String)) :
    ∀ tier ∈ collectAnnounceTiers random random' obfuscated declared, tier.Nodup := by
  intro tier h
  unfold collectAnnounceTiers at h
  rcases List.mem_append.mp h with hobf | hplain
  · exact dedupTiers_nodup random 0 [] _ tier (List.mem_of_mem_filter hobf)
  · obtain ⟨t, ht, rfl⟩ := List.mem_map.mp (List.mem_of_mem_filter hplain)
    exact (dedupTiers_nodup random' 0 [] declared t (List.mem_of_mem_filter ht)).filter _

/-- No tier holds a URL twice. -/
def Distinct (s : TrackerRunState) : Prop := ∀ urls ∈ s.tiers, (urls.map TrackerUrlState.url).Nodup

theorem distinct_start {tiers appended : List (List String)} (h : ∀ tier ∈ tiers, tier.Nodup) (happ : ∀ tier ∈ appended, tier.Nodup)
    (now : Nat) : (start tiers appended now).Distinct := by
  intro urls hurls
  obtain ⟨tier, htier, rfl⟩ := List.mem_map.mp hurls
  rw [List.map_map, show TrackerUrlState.url ∘ (fun url => TrackerUrlState.fresh url now) = id from rfl, List.map_id]
  rcases List.mem_append.mp htier with hold | hlate
  · exact h tier hold
  · exact happ tier (List.mem_of_mem_filter hlate)

/-- Changing the URLs of a tier without renaming any keeps them distinct. -/
theorem Distinct.modify (h : s.Distinct) (tier : Nat) {f : List TrackerUrlState → List TrackerUrlState}
    (hf : ∀ urls, ((f urls).map TrackerUrlState.url).Perm (urls.map TrackerUrlState.url)) (last : Option Nat) :
    Distinct ⟨s.tiers.modify tier f, last⟩ := by
  intro urls hurls
  obtain ⟨i, hi⟩ := List.mem_iff_getElem?.mp hurls
  rw [List.getElem?_modify] at hi
  obtain ⟨old, hold, heq⟩ := Option.map_eq_some_iff.mp hi
  have hnodup := h old (List.mem_of_getElem? hold)
  split at heq
  · rw [← heq]
    exact (hf old).nodup_iff.mpr hnodup
  · rw [← heq]
    exact hnodup

theorem Distinct.map (h : s.Distinct) {f : TrackerUrlState → TrackerUrlState} (hf : ∀ e, (f e).url = e.url) :
    Distinct { s with tiers := s.tiers.map (fun urls => urls.map f) } := by
  intro urls hurls
  obtain ⟨old, hold, rfl⟩ := List.mem_map.mp hurls
  rw [List.map_map, show TrackerUrlState.url ∘ f = TrackerUrlState.url from funext hf]
  exact h old hold

theorem promote_urls_perm (url : String) {record : TrackerUrlState → TrackerUrlState} (hrec : ∀ e, (record e).url = e.url)
    (urls : List TrackerUrlState) : ((promote url record urls).map TrackerUrlState.url).Perm (urls.map TrackerUrlState.url) := by
  unfold promote
  split
  · exact List.Perm.refl _
  split
  · exact List.Perm.refl _
  · rename_i entry hentry
    have hperm := (cons_eraseIdx_perm hentry).map TrackerUrlState.url
    rw [List.map_cons] at hperm ⊢
    rwa [hrec]

theorem update_urls (url : String) {record : TrackerUrlState → TrackerUrlState} (hrec : ∀ e, (record e).url = e.url)
    (urls : List TrackerUrlState) : (update url record urls).map TrackerUrlState.url = urls.map TrackerUrlState.url := by
  unfold update
  split
  · rfl
  · exact map_modify_eq hrec _ urls

theorem url_bumpFailures (e : TrackerUrlState) : e.bumpFailures.url = e.url := rfl

theorem url_recordFailure (e : TrackerUrlState) (error : TrackerError) (now : Nat) : (e.recordFailure error now).1.url = e.url := by
  have hbump : (e.recordFailure error now).1.url = e.bumpFailures.url := by
    unfold TrackerUrlState.recordFailure
    split <;> rfl
  exact hbump.trans (url_bumpFailures e)

theorem url_recordSuccess (e : TrackerUrlState) (event : AnnounceEvent) (finishedAtSend finishedNow : Bool)
    (resp : AnnounceResponse) (now : Nat) : (e.recordSuccess event finishedAtSend finishedNow resp now).url = e.url :=
  rfl

/-- What the two commands keep of a URL's state. -/
def Retimed (f : TrackerUrlState → TrackerUrlState) : Prop :=
  ∀ e, (f e).url = e.url ∧ (f e).failures = e.failures ∧ (f e).startedSent = e.startedSent ∧ (f e).disabled = e.disabled

theorem retimed_announceNow (completion : Bool) (now : Nat) : Retimed (fun e => e.announceNow completion now) := by
  intro e
  unfold TrackerUrlState.announceNow
  simp only
  split
  · exact ⟨rfl, rfl, rfl, rfl⟩
  · exact ⟨rfl, rfl, rfl, rfl⟩

theorem retimed_retryFailedNow (now : Nat) : Retimed (fun e => e.retryFailedNow now) := by
  intro e
  unfold TrackerUrlState.retryFailedNow
  simp only
  split
  · exact ⟨rfl, rfl, rfl, rfl⟩
  · exact ⟨rfl, rfl, rfl, rfl⟩

theorem Distinct.appendTier (h : s.Distinct) {urls : List String} (hurls : urls.Nodup) (now : Nat) :
    (s.appendTier urls now).Distinct := by
  unfold TrackerRunState.appendTier
  split
  · exact h
  · intro tier htier
    rcases List.mem_append.mp htier with hold | hnew
    · exact h tier hold
    · obtain rfl := List.mem_singleton.mp hnew
      rw [List.map_map, show TrackerUrlState.url ∘ (fun url => TrackerUrlState.fresh url now) = id from rfl, List.map_id]
      exact hurls

theorem tiers_appendTier {tier : Nat} {old : List TrackerUrlState} (h : s.tiers[tier]? = some old)
    (urls : List String) (now : Nat) : (s.appendTier urls now).tiers[tier]? = some old := by
  unfold TrackerRunState.appendTier
  split
  · exact h
  · exact (List.getElem?_append_left (List.getElem?_eq_some_iff.mp h).1).trans h

end TrackerRunState

namespace TrackerPoller

open TrackerRunState

variable {p : TrackerPoller} {tier index : Nat} {s : TrackerRunState} {e : TrackerUrlState} {url : String}

/-- The announce under way is to a URL that is in its tier, not disabled, and started unless this announce starts it. -/
structure Ready (p : TrackerPoller) : Prop where
  distinct : p.run.Distinct
  pending : ∀ a, p.announcing = some a → ∃ urls, p.run.tiers[a.tier]? = some urls ∧ ∃ e ∈ urls, e.url = a.selected.url ∧
    e.disabled = false ∧ (a.event ≠ .started → e.startedSent = true)

theorem Ready.retime (h : p.Ready) {f : TrackerUrlState → TrackerUrlState} (hf : Retimed f) :
    Ready { p with run := { p.run with tiers := p.run.tiers.map (fun urls => urls.map f) } } := by
  refine ⟨h.distinct.map (fun e => (hf e).1), fun a ha => ?_⟩
  obtain ⟨urls, hurls, e, he, hurl, hdis, hstart⟩ := h.pending a ha
  refine ⟨urls.map f, ?_, f e, List.mem_map_of_mem he, (hf e).1.trans hurl, (hf e).2.2.2.trans hdis, fun hne => ?_⟩
  · show (p.run.tiers.map _)[a.tier]? = _
    rw [List.getElem?_map, hurls]
    rfl
  · exact (hf e).2.2.1.trans (hstart hne)

/-- What `pick` finds due is one of its candidates, which are the entries of the tiers. -/
theorem scan_due {now : Nat} {earliest : Option Nat} {L : List (Nat × Nat × TrackerUrlState)}
    (h : scan now earliest L = .due tier index) : ∃ e, (tier, index, e) ∈ L ∧ e.disabled = false := by
  induction L generalizing earliest with
  | nil => cases h
  | cons c rest ih =>
    obtain ⟨t, i, entry⟩ := c
    have hrest : ∀ {e'}, scan now e' rest = .due tier index → ∃ e, (tier, index, e) ∈ (t, i, entry) :: rest ∧ e.disabled = false := by
      intro e' hr
      obtain ⟨e, hmem, hd⟩ := ih hr
      exact ⟨e, List.mem_cons_of_mem _ hmem, hd⟩
    unfold scan at h
    split at h
    · exact hrest h
    rename_i hd
    split at h
    · cases h
      exact ⟨entry, List.mem_cons_self .., by simpa using hd⟩
    simp only at h
    split at h
    · cases h
    · exact hrest h

theorem mem_candidates (h : (tier, index, e) ∈ s.candidates) :
    ∃ urls, s.tiers[tier]? = some urls ∧ urls[index]? = some e := by
  unfold candidates at h
  obtain ⟨⟨urls, t⟩, ht, hmem⟩ := List.mem_flatMap.mp h
  obtain ⟨⟨e', i⟩, hi, heq⟩ := List.mem_map.mp hmem
  simp only [Prod.mk.injEq] at heq
  obtain ⟨rfl, rfl, rfl⟩ := heq
  refine ⟨urls, ?_, ?_⟩
  · exact List.mem_zipIdx_iff_getElem?.mp (List.mem_of_mem_drop ht)
  · exact List.mem_zipIdx_iff_getElem?.mp hi

theorem Ready.poll (h : p.Ready) (finished : Bool) (now : Nat) : (p.poll finished now).Ready := by
  unfold TrackerPoller.poll
  split
  · exact h
  split
  · exact h
  rename_i tier index hpick
  split
  · exact h
  · rename_i selected hsel
    refine ⟨h.distinct, fun a ha => ?_⟩
    cases ha
    obtain ⟨e, hmem, hdis⟩ := scan_due hpick
    obtain ⟨urls, hurls, hentry⟩ := mem_candidates hmem
    unfold entryAt at hsel
    rw [hurls, Option.bind_some, hentry] at hsel
    obtain rfl := Option.some.inj hsel
    refine ⟨urls, hurls, e, List.mem_of_getElem? hentry, rfl, hdis, fun hne => ?_⟩
    unfold TrackerUrlState.announceEvent at hne
    cases hs : e.startedSent with
    | true => rfl
    | false =>
      rw [hs] at hne
      exact absurd rfl hne

/-- Every operation leaves the poller ready. -/
theorem Ready.apply (h : p.Ready) (op : TrackerOp) (now : Nat) : (op.apply p now).Ready := by
  cases op with
  | poll finished => exact h.poll finished now
  | succeed resp finishedNow =>
    show (p.succeed resp finishedNow now).Ready
    unfold TrackerPoller.succeed
    split
    · exact h
    · rename_i a _
      refine ⟨?_, fun a ha => (by cases ha)⟩
      exact h.distinct.modify a.tier (promote_urls_perm a.selected.url
        (fun e => url_recordSuccess e a.event a.finished finishedNow resp now)) (some a.tier)
  | fail error =>
    show (p.fail error now).Ready
    unfold TrackerPoller.fail
    split
    · exact h
    · refine ⟨?_, fun a ha => (by cases ha)⟩
      refine h.distinct.modify _ (fun urls => ?_) _
      rw [update_urls _ (fun e => url_recordFailure e error now)]
  | appendTier parts existing =>
    refine ⟨h.distinct.appendTier (unseen_nodup existing parts).1 now, fun a ha => ?_⟩
    obtain ⟨urls, hurls, hentry⟩ := h.pending a ha
    refine ⟨urls, ?_, hentry⟩
    exact tiers_appendTier hurls _ now
  | announceNow completion => exact h.retime (retimed_announceNow completion now)
  | retryFailedNow => exact h.retime (retimed_retryFailedNow now)

/-! ## The URL that last answered -/

/-- The URL leads the tier that last answered, it works, and an announce under way is to it. -/
def StaysWith (url : String) (p : TrackerPoller) : Prop :=
  ∃ tier x rest, p.run.lastSuccessfulTier = some tier ∧ p.run.tiers[tier]? = some (x :: rest) ∧ x.url = url ∧ x.isWorking = true ∧
    x.disabled = false ∧ ∀ a, p.announcing = some a → a.tier = tier ∧ a.selected.url = url

/-- The walk starts from the first URL of the tier that last answered, if that URL works. -/
theorem candidates_of_working {x : TrackerUrlState} {rest : List TrackerUrlState}
    (hlast : s.lastSuccessfulTier = some tier) (hurls : s.tiers[tier]? = some (x :: rest)) (hwork : x.isWorking = true) :
    ∃ L, s.candidates = (tier, 0, x) :: L := by
  have hcur : s.current = some tier := by
    unfold TrackerRunState.current
    rw [hlast, Option.filter_some, hurls, Option.any_some, List.any_cons, hwork, Bool.true_or, if_pos rfl]
  obtain ⟨hlt, hget⟩ := List.getElem?_eq_some_iff.mp hurls
  have hdrop : s.tiers.zipIdx.drop tier = (x :: rest, tier) :: s.tiers.zipIdx.drop (tier + 1) := by
    rw [List.drop_eq_getElem_cons (by rwa [List.length_zipIdx]), List.getElem_zipIdx, hget, Nat.zero_add]
  unfold candidates
  rw [hcur, Option.getD_some, hdrop, List.flatMap_cons, List.zipIdx_cons, List.map_cons, List.cons_append]
  exact ⟨_, rfl⟩

/-- Nothing but that URL is found due. -/
theorem StaysWith.pick (h : p.StaysWith url) {now : Nat}
    (hpick : p.run.pick now = .due tier index) :
    p.run.lastSuccessfulTier = some tier ∧ ∃ e, p.run.entryAt tier index = some e ∧ e.url = url := by
  obtain ⟨t, x, rest, hlast, hurls, hurl, hwork, hdis, _⟩ := h
  obtain ⟨L, hL⟩ := candidates_of_working hlast hurls hwork
  unfold TrackerRunState.pick at hpick
  rw [hL] at hpick
  unfold scan at hpick
  rw [hdis, hwork, if_neg Bool.false_ne_true] at hpick
  split at hpick
  · cases hpick
    refine ⟨hlast, x, ?_, hurl⟩
    unfold entryAt
    rw [hurls]
    rfl
  · cases hpick

theorem StaysWith.poll (h : p.StaysWith url) (finished : Bool) (now : Nat) :
    (p.poll finished now).StaysWith url := by
  unfold TrackerPoller.poll
  split
  · exact h
  split
  · exact h
  · rename_i tier index hpick
    obtain ⟨hlast, e, he, hurl⟩ := h.pick hpick
    rw [he]
    obtain ⟨t, x, rest, hlast', hurls, hx, hwork, hdis, _⟩ := h
    obtain rfl := Option.some.inj (hlast.symm.trans hlast')
    refine ⟨tier, x, rest, hlast, hurls, hx, hwork, hdis, fun a ha => ?_⟩
    cases ha
    exact ⟨rfl, hurl⟩

/-- An announce that succeeds leaves its URL in front of its tier, working. -/
theorem staysWith_settle {urls : List TrackerUrlState}
    {event : AnnounceEvent} (hurls : s.tiers[tier]? = some urls) (hfind : urls.findIdx? (fun entry => entry.url = url) = some index)
    (he : urls[index]? = some e) (hdis : e.disabled = false) (hstart : event ≠ .started → e.startedSent = true)
    (finishedAtSend finishedNow : Bool) (resp : AnnounceResponse) (now : Nat) :
    StaysWith url ⟨(s.settleTierSuccess tier url event finishedAtSend finishedNow resp now).1, none⟩ := by
  have hurl : e.url = url := by
    obtain ⟨hlt, hp, _⟩ := List.findIdx?_eq_some_iff_getElem.mp hfind
    obtain ⟨_, rfl⟩ := List.getElem?_eq_some_iff.mp he
    simpa using hp
  refine ⟨tier, e.recordSuccess event finishedAtSend finishedNow resp now, urls.eraseIdx index, rfl, ?_, hurl, ?_, hdis,
    fun a ha => (by cases ha)⟩
  · show (s.tiers.modify tier _)[tier]? = _
    rw [List.getElem?_modify, hurls]
    simp only [if_true, promote, hfind, he, Option.map_eq_map, Option.map_some]
  · unfold TrackerUrlState.isWorking TrackerUrlState.recordSuccess
    by_cases hev : event = .started
    · simp [hev]
    · simp [hev, hstart hev]

/-- Where URLs are distinct the first one of a name is the only one. -/
theorem findIdx?_of_distinct {urls : List TrackerUrlState} (hd : (urls.map TrackerUrlState.url).Nodup)
    (he : e ∈ urls) : ∃ index, urls.findIdx? (fun entry => entry.url = e.url) = some index ∧ urls[index]? = some e := by
  obtain ⟨index, hindex⟩ := List.mem_iff_getElem?.mp he
  obtain ⟨hlt, hget⟩ := List.getElem?_eq_some_iff.mp hindex
  refine ⟨index, List.findIdx?_eq_some_iff_getElem.mpr ⟨hlt, by simp [hget], fun j hj => ?_⟩, hindex⟩
  have hne := List.pairwise_iff_getElem.mp hd j index (by rw [List.length_map]; omega) (by rwa [List.length_map]) hj
  simp only [List.getElem_map, hget] at hne
  simpa using hne

/-- Once an announce has succeeded the poller stays with its URL. -/
theorem Ready.staysWith (h : p.Ready) {a : Announce} (ha : p.announcing = some a) (resp : AnnounceResponse)
    (finishedNow : Bool) (now : Nat) : (p.succeed resp finishedNow now).StaysWith a.selected.url := by
  obtain ⟨urls, hurls, e, he, hurl, hdis, hstart⟩ := h.pending a ha
  obtain ⟨index, hfind, hindex⟩ := findIdx?_of_distinct (h.distinct urls (List.mem_of_getElem? hurls)) he
  rw [hurl] at hfind
  unfold TrackerPoller.succeed
  rw [ha]
  exact staysWith_settle hurls hfind hindex hdis hstart a.finished finishedNow resp now

theorem StaysWith.retime (h : p.StaysWith url) {f : TrackerUrlState → TrackerUrlState}
    (hf : Retimed f) : StaysWith url { p with run := { p.run with tiers := p.run.tiers.map (fun urls => urls.map f) } } := by
  obtain ⟨tier, x, rest, hlast, hurls, hurl, hwork, hdis, hann⟩ := h
  obtain ⟨hfurl, hffail, hfstart, hfdis⟩ := hf x
  refine ⟨tier, f x, rest.map f, hlast, ?_, hfurl.trans hurl, ?_, hfdis.trans hdis, hann⟩
  · show (p.run.tiers.map _)[tier]? = _
    rw [List.getElem?_map, hurls]
    rfl
  · unfold TrackerUrlState.isWorking at hwork ⊢
    rwa [hffail, hfstart]

/-- Every step but a failed announce to the URL keeps the poller with it. -/
theorem StaysWith.apply (h : p.StaysWith url) {op : TrackerOp} (hop : ¬ op.Fails p url)
    (now : Nat) : (op.apply p now).StaysWith url := by
  cases op with
  | poll finished => exact h.poll finished now
  | succeed resp finishedNow =>
    show (p.succeed resp finishedNow now).StaysWith url
    unfold TrackerPoller.succeed
    split
    · exact h
    · rename_i a ha
      obtain ⟨tier, x, rest, hlast, hurls, hurl, hwork, hdis, hann⟩ := h
      obtain ⟨rfl, haurl⟩ := hann a ha
      have hfind : (x :: rest).findIdx? (fun entry => entry.url = a.selected.url) = some 0 := by
        rw [List.findIdx?_cons, hurl, haurl, decide_eq_true rfl, if_pos rfl]
      have hstart : a.event ≠ .started → x.startedSent = true := by
        intro _
        exact (Bool.and_eq_true_iff.mp hwork).1
      rw [← haurl]
      exact staysWith_settle hurls hfind rfl hdis hstart a.finished finishedNow resp now
  | fail error =>
    show (p.fail error now).StaysWith url
    unfold TrackerPoller.fail
    split
    · exact h
    · rename_i a ha
      obtain ⟨_, _, _, _, _, _, _, _, hann⟩ := h
      refine absurd ?_ hop
      show p.announcing.any _ = true
      rw [ha, Option.any_some, (hann a ha).2, decide_eq_true rfl]
  | appendTier parts existing =>
    obtain ⟨tier, x, rest, hlast, hurls, hrest⟩ := h
    refine ⟨tier, x, rest, ?_, ?_, hrest⟩
    · show (p.run.appendTier _ now).lastSuccessfulTier = _
      unfold TrackerRunState.appendTier
      split <;> exact hlast
    · show (p.run.appendTier _ now).tiers[tier]? = _
      exact tiers_appendTier hurls _ now
  | announceNow completion => exact h.retime (retimed_announceNow completion now)
  | retryFailedNow => exact h.retime (retimed_retryFailedNow now)

end TrackerPoller

end Risuko
