import Risuko.Rss.Downloads

/-!
# The history beside the downloads

`RssState.Backed` says that the record of an episode is what its last complete download left, or that of a download that still runs. A
step that is `Orderly` keeps it.
-/

namespace Risuko

/-! ## Storage keys -/

/-- A text is cut at its last separator in one way. -/
theorem eq_of_append_sep {α : Type*} {sep : α} {x y u v : List α} (hu : sep ∉ u) (hv : sep ∉ v)
    (h : x ++ sep :: u = y ++ sep :: v) : x = y ∧ u = v := by
  have hlen : ∀ {x y u v : List α}, sep ∉ u → x ++ sep :: u = y ++ sep :: v → ∀ w, y = x ++ w → w = [] := by
    intro x y u v hu h w hw
    subst hw
    rw [List.append_assoc] at h
    have h := List.append_cancel_left h
    cases w with
    | nil => rfl
    | cons c w =>
      rw [List.cons_append, List.cons.injEq] at h
      exact absurd (by rw [h.2]; simp) hu
  have hxy : x = y := by
    rcases List.append_eq_append_iff.mp h with ⟨w, hw, -⟩ | ⟨w, hw, -⟩
    · rw [hw, hlen hu h w hw, List.append_nil]
    · rw [hw, hlen hv h.symm w hw, List.append_nil]
  subst hxy
  exact ⟨rfl, (List.cons.inj (List.append_cancel_left h)).2⟩

/-- A number has no bars. -/
theorem bar_not_mem_decimal (n : Nat) : (124 : UInt8) ∉ decimal n := by
  intro h
  have := List.all_eq_true.mp (decimal_all n) _ h
  cases this

/-- The storage key names one episode. -/
theorem EpisodeKey.toStorageKey_injective {a b : EpisodeKey} (h : a.toStorageKey = b.toStorageKey) : a = b := by
  have hform : ∀ k : EpisodeKey, k.toStorageKey = ((k.series ++ 124 :: (115 :: (k.season.map decimal).getD []))
      ++ 124 :: (101 :: decimal k.episode)) ++ 124 :: (if k.absolute then [97, 98, 115] else [115, 116, 100]) := by
    intro k
    simp only [EpisodeKey.toStorageKey]
    have h1 : "|".toUTF8.toList = [124] := by decide +kernel
    have h2 : "s".toUTF8.toList = [115] := by decide +kernel
    have h3 : "e".toUTF8.toList = [101] := by decide +kernel
    have h4 : "abs".toUTF8.toList = [97, 98, 115] := by decide +kernel
    have h5 : "std".toUTF8.toList = [115, 116, 100] := by decide +kernel
    rw [h1, h2, h3, h4, h5]
    simp
  rw [hform, hform] at h
  have hkind : ∀ absolute : Bool, (124 : UInt8) ∉ (if absolute then [97, 98, 115] else [115, 116, 100]) := by decide
  have hepisode : ∀ n, (124 : UInt8) ∉ 101 :: decimal n := fun n hm => by
    rcases List.mem_cons.mp hm with hm | hm
    · cases hm
    · exact bar_not_mem_decimal n hm
  have hseason : ∀ season : Option Nat, (124 : UInt8) ∉ 115 :: (season.map decimal).getD [] := fun season hm => by
    rcases List.mem_cons.mp hm with hm | hm
    · cases hm
    · cases season with
      | none => cases hm
      | some n => exact bar_not_mem_decimal n hm
  obtain ⟨h, habsolute⟩ := eq_of_append_sep (hkind _) (hkind _) h
  obtain ⟨h, hep⟩ := eq_of_append_sep (hepisode _) (hepisode _) h
  obtain ⟨hseries, hse⟩ := eq_of_append_sep (hseason _) (hseason _) h
  have hep := decimal_injective (List.cons.inj hep).2
  have hse : a.season = b.season := by
    have hse := (List.cons.inj hse).2
    cases ha : a.season with
    | none =>
      cases hb : b.season with
      | none => rfl
      | some n =>
        rw [ha, hb] at hse
        exact absurd hse.symm (decimal_ne_nil n)
    | some m =>
      cases hb : b.season with
      | none =>
        rw [ha, hb] at hse
        exact absurd hse (decimal_ne_nil m)
      | some n =>
        rw [ha, hb] at hse
        rw [decimal_injective hse]
  have habs : a.absolute = b.absolute := by
    cases ha : a.absolute <;> cases hb : b.absolute <;> rw [ha, hb] at habsolute <;> first | rfl | cases habsolute
  cases a
  cases b
  simp_all

namespace RssStore

variable {s : RssStore}

/-! ## Writing the history -/

/-- With room for the key nothing is removed. -/
theorem evict_insert {history : OrdMap (List UInt8) EpisodeRecord} {key : List UInt8} (r : EpisodeRecord) (listing : List (List UInt8))
    (hroom : (history.erase key).size < maxEpisodeHistory) : evict (history.insert key r) listing = history.insert key r := by
  have hsize : (history.insert key r).size = (history.erase key).size + 1 := (history.insert_perm key r).length_eq
  unfold evict
  rw [if_neg (by omega)]

/-- The record of an episode in the history. -/
def recordOf (s : RssStore) (k : EpisodeKey) : Option EpisodeRecord := s.episodeHistory.get? k.toStorageKey

theorem recordOf_recordEpisode {k : EpisodeKey} (r : EpisodeRecord) (listing : List (List UInt8))
    (hroom : (s.episodeHistory.erase k.toStorageKey).size < maxEpisodeHistory) (k' : EpisodeKey) :
    (s.recordEpisode k r listing).recordOf k' = if k' = k then some r else s.recordOf k' := by
  simp only [recordOf, recordEpisode, evict_insert r listing hroom, OrdMap.get?_insert]
  by_cases hk : k' = k
  · rw [hk]
    simp
  · rw [if_neg (fun he => hk (EpisodeKey.toStorageKey_injective he)), if_neg hk]

/-- `record_download` writes what `record_episode` writes. -/
theorem recordOf_recordDownload {feedId itemId ruleId : List UInt8} {key : Option EpisodeKey} {score : Int} {now : Nat}
    {path : Option (List UInt8)} {listing : List (List UInt8)}
    (hroom : ∀ k ∈ key, (s.episodeHistory.erase k.toStorageKey).size < maxEpisodeHistory) (k' : EpisodeKey) :
    (s.recordDownload feedId itemId ruleId key score now path listing).recordOf k'
      = if key = some k' then some (episodeRecord feedId itemId ruleId score now path) else s.recordOf k' := by
  cases key with
  | none => rfl
  | some k =>
    refine (recordOf_recordEpisode _ _ (hroom k rfl) k').trans ?_
    by_cases hk : k' = k
    · simp [hk]
    · rw [if_neg hk, if_neg (fun he => hk (Option.some.inj he).symm)]

/-- A roll-back writes the record that was replaced, of the one episode and only over the download's own record. -/
theorem recordOf_rollbackEpisode (s : RssStore) (p : PendingDownload) (k' : EpisodeKey) :
    (s.rollbackEpisode p).recordOf k' = if p.key = some k' ∧ s.ours p k' = true then p.prevEpisode else s.recordOf k' := by
  unfold rollbackEpisode
  cases hkey : p.key with
  | none => simp
  | some k =>
    dsimp only
    by_cases hk : k' = k
    · subst hk
      cases hours : s.ours p k' with
      | false => simp
      | true =>
        cases p.prevEpisode <;> simp [recordOf]
    · have hne : k'.toStorageKey ≠ k.toStorageKey := fun he => hk (EpisodeKey.toStorageKey_injective he)
      have hno : ¬ (some k = some k' ∧ s.ours p k' = true) := fun h => hk (Option.some.inj h.1).symm
      rw [if_neg hno]
      split
      · rfl
      · cases p.prevEpisode with
        | some prev => exact OrdMap.get?_insert_of_ne _ _ hne
        | none => exact OrdMap.get?_erase_of_ne _ hne

/-- The record of a running download is its own. -/
theorem ours_of_recordOf {p : PendingDownload} {k : EpisodeKey} (h : s.recordOf k = some p.record) :
    s.ours p k = true := by
  unfold recordOf at h
  simp [ours, h, PendingDownload.record, episodeRecord]

end RssStore

namespace RssState

variable {start : OrdMap (List UInt8) EpisodeRecord} {s s' : RssState} {key : Option EpisodeKey} {r : EpisodeRecord}
variable {listing : List (List UInt8)}

/-! ## The invariant -/

/-- The record of an episode is what the last complete download left, or that of a download that still runs. -/
def Backed (start : OrdMap (List UInt8) EpisodeRecord) (s : RssState) : Prop :=
  ∀ k, s.store.recordOf k = (settled start s k).head?
    ∨ ∃ q ∈ s.unfinished, q.key = some k ∧ s.store.recordOf k = some q.record

/-- The last complete download of an episode is one of the best. -/
def Improving (start : OrdMap (List UInt8) EpisodeRecord) (s : RssState) : Prop :=
  ∀ k, ∀ r ∈ (settled start s k).head?, ∀ r' ∈ settled start s k, r'.score ≤ r.score

theorem settled_finished
    (h : s'.completed = s.finished key r) (k : EpisodeKey) :
    settled start s' k = if key = some k then r :: settled start s k else settled start s k := by
  unfold settled
  rw [h]
  cases key with
  | none => simp [finished]
  | some k' =>
    by_cases hk : k' = k
    · simp [finished, hk]
    · simp [finished, hk]

/-- A completed download that is not worse than those before. -/
theorem Improving.finish
    (h : Improving start s) (hs : s'.completed = s.finished key r)
    (hbest : ∀ k ∈ key, ∀ r' ∈ settled start s k, r'.score ≤ r.score) : Improving start s' := by
  intro k
  rw [settled_finished hs]
  split
  · rename_i hk
    intro x hx r' hr'
    cases hx
    rcases List.mem_cons.mp hr' with rfl | hr'
    · exact le_refl _
    · exact hbest k hk r' hr'
  · exact h k

/-- The record of a completed download stands for its episode. Of the running ones at most it is gone. -/
theorem Backed.finish
    (h : Backed start s) (hs : s'.completed = s.finished key r)
    (hrec : ∀ k, s'.store.recordOf k = if key = some k then some r else s.store.recordOf k)
    (hunf : ∀ q ∈ s.unfinished, q.key ≠ key → q ∈ s'.unfinished) : Backed start s' := by
  intro k
  rw [settled_finished hs, hrec]
  by_cases hk : key = some k
  · rw [if_pos hk, if_pos hk]
    exact .inl rfl
  · rw [if_neg hk, if_neg hk]
    rcases h k with hset | ⟨q, hq, hqk, hrec⟩
    · exact .inl hset
    · exact .inr ⟨q, hunf q hq (fun he => hk (he.symm.trans hqk)), hqk, hrec⟩

theorem mem_tracked {q : PendingDownload} :
    q ∈ s.tracked ↔ (∃ gid, s.poller = .recorded gid q) ∨ ∃ gid, s.pending.get? gid = some q := by
  have hmap : q ∈ s.pending.entries.map Prod.snd ↔ ∃ gid, s.pending.get? gid = some q := by
    simp [OrdMap.get?_eq_some_iff]
  unfold tracked
  cases s.poller with
  | idle => simpa using hmap
  | decided c => simpa using hmap
  | recorded gid p =>
    rw [List.mem_cons, hmap]
    simp [eq_comm]

theorem mem_unfinished {q : PendingDownload} :
    q ∈ s.unfinished ↔ (∃ outcome, s.monitor = some (q, outcome)) ∨ q ∈ s.tracked := by
  unfold unfinished
  rw [List.mem_append]
  cases s.monitor with
  | none => simp
  | some m => simp [Prod.ext_iff, eq_comm]

/-- A step that writes no record and ends no download. -/
theorem Backed.of_unfinished (h : Backed start s)
    (hstore : s'.store = s.store) (hdone : s'.completed = s.completed) (hunf : ∀ q ∈ s.unfinished, q ∈ s'.unfinished) :
    Backed start s' := by
  intro k
  have hset : settled start s' k = settled start s k := by
    unfold settled
    rw [hdone]
  rw [hstore, hset]
  rcases h k with h | ⟨q, hq, hk⟩
  · exact .inl h
  · exact .inr ⟨q, hunf q hq, hk⟩

/-- The download the poller is about to track has a number of its own. -/
def Fresh (s : RssState) : Prop := ∀ gid p, s.poller = .recorded gid p → s.pending.get? gid = none

/-- The invariant of an orderly run. -/
structure Ok (start : OrdMap (List UInt8) EpisodeRecord) (s : RssState) : Prop where
  backed : Backed start s
  improving : Improving start s
  fresh : Fresh s

theorem ok_new (store : RssStore) : Ok store.episodeHistory (RssState.new store) where
  backed k := .inl (by
    simp only [settled, RssState.new, RssStore.recordOf, List.filter_nil, List.map_nil, List.nil_append]
    cases store.episodeHistory.get? k.toStorageKey <;> rfl)
  improving k r hr r' hr' := by
    simp only [settled, RssState.new, List.filter_nil, List.map_nil, List.nil_append, Option.mem_toList] at hr hr'
    rw [hr'] at hr
    cases hr
    exact le_refl _
  fresh gid p hp := by cases hp

/-! ## Steps -/

theorem Ok.evaluate (h : Ok start s) {feedId itemId : List UInt8}
    {rule : RssRule} {score : Int} {now : Nat}
    (hs : s.perform (.evaluate feedId itemId key rule score now) = some s') : Ok start s' := by
  simp only [perform] at hs
  split at hs
  · rename_i hp
    have hunf : ∀ c, ∀ q ∈ s.unfinished, q ∈ ({ s with poller := .decided c } : RssState).unfinished := by
      intro c q hq
      simp only [mem_unfinished, mem_tracked, hp] at hq ⊢
      simpa using hq
    split at hs
    · cases hs
      exact h
    · cases hs
      exact ⟨h.backed.of_unfinished rfl rfl (hunf _), h.improving, fun gid p he => by cases he⟩
    · cases hs
      exact ⟨h.backed.of_unfinished rfl rfl (hunf _), h.improving, fun gid p he => by cases he⟩
  · cases hs

theorem Ok.giveUp (h : Ok start s)
    (hs : s.perform .giveUp = some s') : Ok start s' := by
  simp only [perform] at hs
  split at hs
  · rename_i c hp
    cases hs
    refine ⟨h.backed.of_unfinished rfl rfl fun q hq => ?_, h.improving, fun gid p he => by cases he⟩
    simp only [mem_unfinished, mem_tracked, hp] at hq ⊢
    simpa using hq
  · cases hs

theorem Ok.saveArticle (h : Ok start s) {path : List UInt8}
    (hroom : s.RoomFor (.saveArticle path listing)) (hok : Orderly start s (.saveArticle path listing))
    (hs : s.perform (.saveArticle path listing) = some s') : Ok start s' := by
  simp only [perform] at hs
  split at hs
  · rename_i c hp
    cases hs
    have hroom : ∀ k ∈ c.key, (s.store.episodeHistory.erase k.toStorageKey).size < maxEpisodeHistory := by
      simpa only [RoomFor, recordedKey, hp] using hroom
    have hbest : ∀ k ∈ c.key, ∀ r ∈ settled start s k, r.score ≤ c.score := by
      have := hok.1 c.score (by simp [completedScore, hp])
      simpa only [recordedKey, hp] using this
    refine ⟨h.backed.finish rfl (RssStore.recordOf_recordDownload hroom) fun q hq _ => ?_, h.improving.finish rfl hbest,
      fun gid p he => by cases he⟩
    simp only [mem_unfinished, mem_tracked, hp] at hq ⊢
    simpa using hq
  · cases hs

theorem Ok.record (h : Ok start s) {gid : Nat}
    (hroom : s.RoomFor (.record gid listing)) (hs : s.perform (.record gid listing) = some s') :
    Ok start s' := by
  simp only [perform] at hs
  split at hs
  · rename_i c hp
    split at hs
    · cases hs
    · rename_i hgid
      have hroom : ∀ k ∈ c.key, (s.store.episodeHistory.erase k.toStorageKey).size < maxEpisodeHistory := by
        simpa only [RoomFor, recordedKey, hp] using hroom
      have hrec : ∀ k, c.key ≠ some k → s'.store.recordOf k = s.store.recordOf k := by
        intro k hk
        cases hs
        cases hc : c.key with
        | none => rfl
        | some k' =>
          dsimp only
          rw [RssStore.recordOf_recordEpisode _ _ (hroom k' hc), if_neg]
          rintro rfl
          exact hk hc
      cases hs
      refine ⟨fun k => ?_, h.improving, fun gid' p he => ?_⟩
      · by_cases hk : c.key = some k
        · refine .inr ⟨_, mem_unfinished.mpr (.inr (mem_tracked.mpr (.inl ⟨gid, rfl⟩))), hk, ?_⟩
          simp only [hk]
          rw [RssStore.recordOf_recordEpisode _ _ (hroom k hk), if_pos rfl]
          rfl
        · have hrec := hrec k hk
          rcases h.backed k with hset | ⟨q, hq, hqk, hq'⟩
          · exact .inl (hrec.trans hset)
          · refine .inr ⟨q, ?_, hqk, hrec.trans hq'⟩
            simp only [mem_unfinished, mem_tracked, hp] at hq ⊢
            rcases hq with hq | ⟨_, hq⟩ | hq
            · exact .inl hq
            · cases hq
            · exact .inr (.inr hq)
      · cases he
        cases hget : s.pending.get? gid with
        | none => rfl
        | some p => exact absurd (OrdMap.contains_iff.mpr ⟨p, hget⟩) hgid
  · cases hs

theorem Ok.track (h : Ok start s) (hs : s.perform .track = some s') :
    Ok start s' := by
  simp only [perform] at hs
  split at hs
  · rename_i gid p hp
    cases hs
    refine ⟨h.backed.of_unfinished rfl rfl fun q hq => ?_, h.improving, fun gid p he => by cases he⟩
    simp only [mem_unfinished, mem_tracked, hp] at hq ⊢
    rcases hq with hq | ⟨_, hq⟩ | ⟨gid', hq⟩
    · exact .inl hq
    · cases hq
      exact .inr (.inr ⟨gid, OrdMap.get?_insert_self _ _ _⟩)
    · refine .inr (.inr ⟨gid', ?_⟩)
      rw [OrdMap.get?_insert_of_ne _ _ (fun he => ?_)]
      · exact hq
      · rw [he, h.fresh gid p hp] at hq
        cases hq
  · cases hs

theorem Ok.observe (h : Ok start s) {gid : Nat} {outcome : Outcome}
    (hs : s.perform (.observe gid outcome) = some s') : Ok start s' := by
  simp only [perform] at hs
  split at hs
  · rename_i p hm hget
    cases hs
    refine ⟨h.backed.of_unfinished rfl rfl fun q hq => ?_, h.improving, fun gid' p' he => ?_⟩
    · simp only [mem_unfinished, mem_tracked, hm] at hq ⊢
      rcases hq with ⟨_, hq⟩ | hq | ⟨gid', hq⟩
      · cases hq
      · exact .inr (.inl hq)
      · by_cases he : gid' = gid
        · rw [he, hget] at hq
          cases hq
          exact .inl ⟨outcome, rfl⟩
        · exact .inr (.inr ⟨gid', by rw [OrdMap.get?_erase_of_ne _ he]; exact hq⟩)
    · rw [OrdMap.get?_erase, h.fresh gid' p' he]
      simp
  · cases hs

theorem Ok.settle (h : Ok start s)
    (hroom : s.RoomFor (.settle listing)) (hok : Orderly start s (.settle listing)) (hs : s.perform (.settle listing) = some s') :
    Ok start s' := by
  -- What the monitor does not have is still unfinished when it is done.
  have hrest : ∀ (p : PendingDownload) (outcome : Outcome), s.monitor = some (p, outcome) → ∀ s' : RssState, s'.poller = s.poller →
      s'.pending = s.pending → ∀ q ∈ s.unfinished, q ≠ p → q ∈ s'.unfinished := by
    intro p outcome hm s' hp hpend q hq hne
    simp only [mem_unfinished, mem_tracked, hm, hp, hpend] at hq ⊢
    rcases hq with ⟨_, hq⟩ | hq
    · cases hq
      exact absurd rfl hne
    · exact .inr hq
  have hback : ∀ (p : PendingDownload) (outcome : Outcome), s.monitor = some (p, outcome) → s.rolledBack (.settle listing) = some p →
      Ok start { s with store := s.store.rollbackEpisode p, monitor := none } := by
    intro p outcome hm hp
    refine ⟨fun k => ?_, h.improving, h.fresh⟩
    change RssStore.recordOf _ k = (settled start s k).head? ∨ _
    dsimp only
    rw [RssStore.recordOf_rollbackEpisode]
    by_cases hours : p.key = some k ∧ s.store.ours p k = true
    · rw [if_pos hours]
      rcases hok.2 p hp k hours.1 hours.2 with hset | ⟨q, hq, hqk, hprev⟩
      · exact .inl hset
      · exact .inr ⟨q, mem_unfinished.mpr (.inr hq), hqk, hprev⟩
    · rw [if_neg hours]
      rcases h.backed k with hset | ⟨q, hq, hqk, hrec⟩
      · exact .inl hset
      · have hne : q ≠ p := by
          rintro rfl
          exact hours ⟨hqk, RssStore.ours_of_recordOf hrec⟩
        exact .inr ⟨q, hrest p outcome hm { s with store := _, monitor := none } rfl rfl q hq hne, hqk, hrec⟩
  simp only [perform] at hs
  split at hs
  · cases hs
  · rename_i p path hm
    cases hs
    have hroom : ∀ k ∈ p.key, (s.store.episodeHistory.erase k.toStorageKey).size < maxEpisodeHistory := by
      simpa only [RoomFor, recordedKey, hm] using hroom
    have hbest : ∀ k ∈ p.key, ∀ r ∈ settled start s k, r.score ≤ p.score := by
      have := hok.1 p.score (by simp [completedScore, hm])
      simpa only [recordedKey, hm] using this
    refine ⟨h.backed.finish rfl (RssStore.recordOf_recordDownload hroom) fun q hq hne => ?_, h.improving.finish rfl hbest, h.fresh⟩
    exact hrest p _ hm { s with store := _, monitor := none, completed := _ } rfl rfl q hq fun he => hne (congrArg _ he)
  · rename_i p hm
    cases hs
    exact hback p _ hm (by simp [rolledBack, hm])
  · rename_i p hm
    cases hs
    exact hback p _ hm (by simp [rolledBack, hm])

/-- An orderly step with room for its record keeps the invariant. -/
theorem Ok.perform (h : Ok start s) {a : Action} (hroom : s.RoomFor a)
    (hok : Orderly start s a) (hs : s.perform a = some s') : Ok start s' := by
  cases a with
  | evaluate => exact h.evaluate hs
  | giveUp => exact h.giveUp hs
  | saveArticle => exact h.saveArticle hroom hok hs
  | record => exact h.record hroom hs
  | track => exact h.track hs
  | observe => exact h.observe hs
  | settle => exact h.settle hroom hok hs

end RssState

end Risuko
