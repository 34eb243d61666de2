import Risuko.Lemmas.Downloads
import Risuko.Lib.Reach

/-!
# The history follows the downloads

When no download of an episode runs, the history has a record of it exactly if one completed, and the record is that of a best one. This
holds of the runs whose steps are orderly. Without that a failed download can block its episode, and a worse copy can take the place
of a better one.
-/

namespace Risuko
namespace RssState

/-- In a run of orderly steps the history follows the downloads: of an episode with no unfinished download there is a record exactly if
one completed or there was one at the start, and it is one of the best. -/
theorem history_follows_downloads {store : RssStore} {s : RssState}
    (h : Reach (fun s => s = RssState.new store)
      (fun s s' => ∃ a, (s.RoomFor a ∧ Orderly store.episodeHistory s a) ∧ s.perform a = some s') s)
    (k : EpisodeKey) (hk : ∀ p ∈ s.unfinished, p.key ≠ some k) : Follows store.episodeHistory s k := by
  have hok : Ok store.episodeHistory s := by
    refine h.invariant (fun s hs => ?_) (fun s s' hinv hs => ?_)
    · subst hs
      exact ok_new store
    · obtain ⟨a, ⟨hroom, hord⟩, hs⟩ := hs
      exact hinv.perform hroom hord hs
  have hrec : s.store.episodeHistory.get? k.toStorageKey = (settled store.episodeHistory s k).head? := by
    rcases hok.backed k with hrec | ⟨q, hq, hqk, -⟩
    · exact hrec
    · exact absurd hqk (hk q hq)
  refine ⟨?_, fun r hr => ?_⟩
  · rw [hrec, List.head?_eq_none_iff]
  · rw [hrec] at hr
    exact ⟨List.mem_of_mem_head? hr, hok.improving k r hr⟩

/-! ## Runs of two downloads -/

def sampleKey : EpisodeKey where
  series := [115]
  season := some 1
  episode := 2
  absolute := false

def sampleRule : RssRule where
  id := [114]
  upgradeExisting := true
  cooldownSecs := 0
  stats := ⟨none, 0, 0⟩

def sampleStore : RssStore := ⟨.empty, [sampleRule], .empty⟩

/-- An item of the episode is added and tracked. -/
def sampleAdd (gid : Nat) (score : Int) : List Action :=
  [.evaluate [102] [UInt8.ofNat gid] (some sampleKey) sampleRule score gid, .record gid [], .track]

/-- A download ends. -/
def sampleEnd (gid : Nat) (outcome : Outcome) : List Action := [.observe gid outcome, .settle []]

/-- The upgrade fails, and the first copy completes. -/
theorem history_follows_downloads_failed_upgrade :
    ∃ s ∈ runActions (fun s a => if s.RoomFor a ∧ Orderly sampleStore.episodeHistory s a then s.perform a else none)
        (RssState.new sampleStore) (sampleAdd 1 5 ++ sampleAdd 2 9 ++ sampleEnd 2 .error ++ sampleEnd 1 (.complete (some [112]))),
      (s.store.episodeHistory.get? sampleKey.toStorageKey).map (·.score) = some 5 ∧ Follows sampleStore.episodeHistory s sampleKey := by
  have hrun : ∃ s ∈ runActions (fun s a => if s.RoomFor a ∧ Orderly sampleStore.episodeHistory s a then s.perform a else none)
        (RssState.new sampleStore) (sampleAdd 1 5 ++ sampleAdd 2 9 ++ sampleEnd 2 .error ++ sampleEnd 1 (.complete (some [112]))),
      (s.store.episodeHistory.get? sampleKey.toStorageKey).map (·.score) = some 5 ∧ s.unfinished = [] := by
    decide +kernel
  obtain ⟨s, hs, hscore, hunf⟩ := hrun
  refine ⟨s, hs, hscore, history_follows_downloads (Reach.runGuarded hs (.init rfl)) sampleKey ?_⟩
  rw [hunf]
  exact fun p hp => absurd hp List.not_mem_nil

/-- Two downloads of an episode fail, the earlier one first: its record comes back. Or both complete, the better one first: the worse
one takes its place. -/
theorem history_left_behind :
    (∃ s ∈ runActions (fun s a => if s.RoomFor a then s.perform a else none) (RssState.new sampleStore)
        (sampleAdd 1 5 ++ sampleAdd 2 9 ++ sampleEnd 1 .error ++ sampleEnd 2 .error),
      s.unfinished = [] ∧ s.completed = [] ∧ ¬ Follows sampleStore.episodeHistory s sampleKey)
    ∧ ∃ s ∈ runActions (fun s a => if s.RoomFor a then s.perform a else none) (RssState.new sampleStore)
        (sampleAdd 1 5 ++ sampleAdd 2 9 ++ sampleEnd 2 (.complete (some [113])) ++ sampleEnd 1 (.complete (some [112]))),
      s.unfinished = [] ∧ ¬ Follows sampleStore.episodeHistory s sampleKey := by
  constructor <;> decide +kernel

end RssState
end Risuko
