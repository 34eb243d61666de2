import Risuko.Lib.Bits
import Risuko.Lib.Decimal
import Risuko.Lib.OrdMap

/-!
# Episodes of a feed

What `rss/mod.rs` and `rss/rule_engine.rs` keep about the episodes that were downloaded: the key of an episode, the decision whether
an item of it is downloaded again, and the history with its records; and the steps of the poller and the download monitor. Texts are
UTF-8 bytes; `normalize_series` is a parameter.
-/

namespace Risuko

def maxEpisodeHistory : Nat := 10000

structure EpisodeKey where
  series : List UInt8
  season : Option Nat
  episode : Nat
  absolute : Bool
  deriving DecidableEq

/-- `to_storage_key`: `series|s1|e2|std`. -/
def EpisodeKey.toStorageKey (k : EpisodeKey) : List UInt8 :=
  let bar := "|".toUTF8.toList
  k.series ++ bar ++ "s".toUTF8.toList ++ (k.season.map decimal).getD [] ++ bar ++ "e".toUTF8.toList ++ decimal k.episode ++ bar
    ++ if k.absolute then "abs".toUTF8.toList else "std".toUTF8.toList

structure EpisodeRecord where
  itemId : List UInt8
  feedId : List UInt8
  score : Int
  downloadedAt : Nat
  filePath : Option (List UInt8)
  ruleId : Option (List UInt8)
  deriving DecidableEq

structure RuleStats where
  lastMatchedAt : Option Nat
  matchCount : UInt64
  downloadCount : UInt64

structure RssRule where
  id : List UInt8
  upgradeExisting : Bool
  cooldownSecs : Nat
  stats : RuleStats

structure RssItem where
  id : List UInt8
  isDownloaded : Bool
  isRead : Bool
  downloadPath : Option (List UInt8)
  matchedRuleId : Option (List UInt8)

structure RssStore where
  items : OrdMap (List UInt8) (List RssItem)
  rules : List RssRule
  episodeHistory : OrdMap (List UInt8) EpisodeRecord

inductive DedupeDecision
  | download
  | upgrade
  | skip (reason : String)
  deriving DecidableEq

/-- `dedupe_decision`. -/
def dedupeDecision (rule : RssRule) (candidateScore : Int) (existing : Option EpisodeRecord) (nowSecs : Nat) : DedupeDecision :=
  match existing with
  | none => .download
  | some existing =>
    if 0 < rule.cooldownSecs && nowSecs - existing.downloadedAt < rule.cooldownSecs then .skip "cooldown active"
    else if !rule.upgradeExisting then .skip "already downloaded"
    else if existing.score < candidateScore then .upgrade
    else .skip "not a quality upgrade"

/-- A download that runs, with the record its own one replaced. -/
structure PendingDownload where
  feedId : List UInt8
  itemId : List UInt8
  ruleId : List UInt8
  key : Option EpisodeKey
  score : Int
  queuedAt : Nat
  prevEpisode : Option EpisodeRecord
  deriving DecidableEq

/-- The record that `record_episode` inserts. -/
def episodeRecord (feedId itemId ruleId : List UInt8) (score : Int) (now : Nat) (path : Option (List UInt8)) : EpisodeRecord where
  itemId := itemId
  feedId := feedId
  score := score
  downloadedAt := now
  filePath := path
  ruleId := some ruleId

/-- The record of a download while it runs. -/
def PendingDownload.record (p : PendingDownload) : EpisodeRecord :=
  episodeRecord p.feedId p.itemId p.ruleId p.score p.queuedAt none

/-- `saturating_add(1)`. -/
def saturatingSucc (n : UInt64) : UInt64 := if n = 0xFFFFFFFFFFFFFFFF then n else n + 1

namespace RssStore

/-- What `record_episode` removes when there are too many records: the oldest. `listing` is the order in which the map lists its keys. -/
def evict (history : OrdMap (List UInt8) EpisodeRecord) (listing : List (List UInt8)) : OrdMap (List UInt8) EpisodeRecord :=
  if maxEpisodeHistory < history.size then
    let entries := listing.filterMap fun k => (history.get? k).map fun r => (k, r.downloadedAt)
    let excess := history.size - maxEpisodeHistory
    (((entries.mergeSort fun a b => a.2 ≤ b.2).take excess).map Prod.fst).foldl (fun history k => history.erase k) history
  else history

/-- `record_episode`. -/
def recordEpisode (s : RssStore) (key : EpisodeKey) (record : EpisodeRecord) (listing : List (List UInt8)) : RssStore :=
  { s with episodeHistory := evict (s.episodeHistory.insert key.toStorageKey record) listing }

/-- `record_download`. -/
def recordDownload (s : RssStore) (feedId itemId ruleId : List UInt8) (key : Option EpisodeKey) (score : Int) (now : Nat)
    (path : Option (List UInt8)) (listing : List (List UInt8)) : RssStore :=
  let items := s.items.mapVal fun feed items =>
    if feed = feedId then
      items.modify (items.findIdx fun i => i.id = itemId) fun it =>
        { it with isDownloaded := true, isRead := true, downloadPath := path, matchedRuleId := some ruleId }
    else items
  let rules := s.rules.modify (s.rules.findIdx fun r => r.id = ruleId) fun rule =>
    { rule with
      stats :=
        { lastMatchedAt := some now
          matchCount := saturatingSucc rule.stats.matchCount
          downloadCount := saturatingSucc rule.stats.downloadCount } }
  let s := { s with items := items, rules := rules }
  match key with
  | some k => s.recordEpisode k (episodeRecord feedId itemId ruleId score now path) listing
  | none => s

/-- The test of `rollback_episode`: the record is that of the download. -/
def ours (s : RssStore) (p : PendingDownload) (k : EpisodeKey) : Bool :=
  match s.episodeHistory.get? k.toStorageKey with
  | some r => r.itemId = p.itemId && r.filePath.isNone
  | none => false

/-- `rollback_episode`. -/
def rollbackEpisode (s : RssStore) (p : PendingDownload) : RssStore :=
  match p.key with
  | none => s
  | some k =>
    if !s.ours p k then s
    else
      match p.prevEpisode with
      | some prev => { s with episodeHistory := s.episodeHistory.insert k.toStorageKey prev }
      | none => { s with episodeHistory := s.episodeHistory.erase k.toStorageKey }

end RssStore

/-!
## The poller and the download monitor

`evaluate_and_download` and `run_download_monitor` beside each other, as steps of a state machine. One poller evaluates one item at
a time: it decides, adds the download, records the episode and tracks the download; an article is written and recorded at once. The
monitor takes a tracked download that has ended out of the map and then records it or rolls it back. `completed` is not in the
source: it lists what was downloaded completely, the last first.
-/

/-- How a download ends. The path is that of its first file. -/
inductive Outcome
  | complete (path : Option (List UInt8))
  | error
  | removed

/-- An item that is to be downloaded. -/
structure Candidate where
  feedId : List UInt8
  itemId : List UInt8
  ruleId : List UInt8
  key : Option EpisodeKey
  score : Int
  now : Nat

/-- Where `evaluate_and_download` is. -/
inductive Poller
  | idle
  | decided (c : Candidate)
  /-- The episode is recorded, the download not tracked yet. -/
  | recorded (gid : Nat) (p : PendingDownload)

structure RssState where
  store : RssStore
  pending : OrdMap Nat PendingDownload
  poller : Poller
  /-- The download the monitor has taken out of the map. -/
  monitor : Option (PendingDownload × Outcome)
  completed : List (EpisodeKey × EpisodeRecord)

namespace RssState

def new (store : RssStore) : RssState where
  store := store
  pending := .empty
  poller := .idle
  monitor := none
  completed := []

inductive Action
  /-- An item that a rule matches and its schedule allows. -/
  | evaluate (feedId itemId : List UInt8) (key : Option EpisodeKey) (rule : RssRule) (score : Int) (now : Nat)
  /-- The engine is not there, there is no URL, or the download was not added. -/
  | giveUp
  | saveArticle (path : List UInt8) (listing : List (List UInt8))
  | record (gid : Nat) (listing : List (List UInt8))
  | track
  | observe (gid : Nat) (outcome : Outcome)
  | settle (listing : List (List UInt8))

/-- The list of what was downloaded after a download of `key`. -/
def finished (s : RssState) (key : Option EpisodeKey) (record : EpisodeRecord) : List (EpisodeKey × EpisodeRecord) :=
  match key with
  | some k => (k, record) :: s.completed
  | none => s.completed

/-- The decision of `evaluate_and_download`. -/
def decision (s : RssState) (key : Option EpisodeKey) (rule : RssRule) (score : Int) (now : Nat) : DedupeDecision :=
  match key with
  | some k => dedupeDecision rule score (s.store.episodeHistory.get? k.toStorageKey) now
  | none => .download

def perform (s : RssState) : Action → Option RssState
  | .evaluate feedId itemId key rule score now =>
    match s.poller with
    | .idle =>
      match s.decision key rule score now with
      | .skip _ => some s
      | .download | .upgrade =>
        some { s with poller := .decided { feedId := feedId, itemId := itemId, ruleId := rule.id, key := key, score := score, now := now } }
    | _ => none
  | .giveUp =>
    match s.poller with
    | .decided _ => some { s with poller := .idle }
    | _ => none
  | .saveArticle path listing =>
    match s.poller with
    | .decided c =>
      some { s with
        store := s.store.recordDownload c.feedId c.itemId c.ruleId c.key c.score c.now (some path) listing
        poller := .idle
        completed := s.finished c.key (episodeRecord c.feedId c.itemId c.ruleId c.score c.now (some path)) }
    | _ => none
  | .record gid listing =>
    match s.poller with
    | .decided c =>
      if s.pending.contains gid then none
      else
        let prev := c.key.bind fun k => s.store.episodeHistory.get? k.toStorageKey
        let store :=
          match c.key with
          | some k => s.store.recordEpisode k (episodeRecord c.feedId c.itemId c.ruleId c.score c.now none) listing
          | none => s.store
        some { s with
          store := store
          poller := .recorded gid
            { feedId := c.feedId, itemId := c.itemId, ruleId := c.ruleId, key := c.key, score := c.score, queuedAt := c.now,
              prevEpisode := prev } }
    | _ => none
  | .track =>
    match s.poller with
    | .recorded gid p => some { s with pending := s.pending.insert gid p, poller := .idle }
    | _ => none
  | .observe gid outcome =>
    match s.monitor, s.pending.get? gid with
    | none, some p => some { s with pending := s.pending.erase gid, monitor := some (p, outcome) }
    | _, _ => none
  | .settle listing =>
    match s.monitor with
    | none => none
    | some (p, .complete path) =>
      some { s with
        store := s.store.recordDownload p.feedId p.itemId p.ruleId p.key p.score p.queuedAt path listing
        monitor := none
        completed := s.finished p.key (episodeRecord p.feedId p.itemId p.ruleId p.score p.queuedAt path) }
    | some (p, .error) | some (p, .removed) => some { s with store := s.store.rollbackEpisode p, monitor := none }

/-! ### What the history should say -/

/-- The downloads that the poller or the map has. -/
def tracked (s : RssState) : List PendingDownload :=
  match s.poller with
  | .recorded _ p => p :: s.pending.entries.map Prod.snd
  | _ => s.pending.entries.map Prod.snd

/-- The downloads that have not ended, or whose end is not in the store yet. -/
def unfinished (s : RssState) : List PendingDownload := (s.monitor.map Prod.fst).toList ++ s.tracked

/-- The records of the completed downloads of an episode, the last first and at the end the one that was there at the start. -/
def settled (start : OrdMap (List UInt8) EpisodeRecord) (s : RssState) (k : EpisodeKey) : List EpisodeRecord :=
  (s.completed.filter fun c => c.1 = k).map Prod.snd ++ (start.get? k.toStorageKey).toList

/-- The history has a record of the episode exactly if it was downloaded, and the record is one of the best. -/
def Follows (start : OrdMap (List UInt8) EpisodeRecord) (s : RssState) (k : EpisodeKey) : Prop :=
  (s.store.episodeHistory.get? k.toStorageKey = none ↔ settled start s k = [])
    ∧ ∀ r ∈ s.store.episodeHistory.get? k.toStorageKey, r ∈ settled start s k ∧ ∀ r' ∈ settled start s k, r'.score ≤ r.score

/-! ### Conditions on steps -/

/-- The key that a step puts into the history. -/
def recordedKey (s : RssState) : Action → Option EpisodeKey
  | .saveArticle .. | .record .. =>
    match s.poller with
    | .decided c => c.key
    | _ => none
  | .settle _ =>
    match s.monitor with
    | some (p, .complete _) => p.key
    | _ => none
  | _ => none

/-- No more keys are recorded than the history may hold: there is room for the one a step adds beside the others. -/
def RoomFor (s : RssState) (a : Action) : Prop :=
  ∀ k ∈ s.recordedKey a, (s.store.episodeHistory.erase k.toStorageKey).size < maxEpisodeHistory

/-- The score of the download that a step records as complete. -/
def completedScore (s : RssState) : Action → Option Int
  | .saveArticle .. =>
    match s.poller with
    | .decided c => some c.score
    | _ => none
  | .settle _ =>
    match s.monitor with
    | some (p, .complete _) => some p.score
    | _ => none
  | _ => none

/-- The failed download that a step rolls back. -/
def rolledBack (s : RssState) : Action → Option PendingDownload
  | .settle _ =>
    match s.monitor with
    | some (p, .error) | some (p, .removed) => some p
    | _ => none
  | _ => none

/-- The record a failed download replaced is the one that the last complete download left, or that of a download that still runs. -/
def MayReturn (start : OrdMap (List UInt8) EpisodeRecord) (s : RssState) (p : PendingDownload) (k : EpisodeKey) : Prop :=
  p.prevEpisode = (settled start s k).head? ∨ ∃ q ∈ s.tracked, q.key = some k ∧ p.prevEpisode = some q.record

/-- A step does not complete a download after a better one of its episode, and where it rolls one back it may put back what the
download replaced. -/
def Orderly (start : OrdMap (List UInt8) EpisodeRecord) (s : RssState) (a : Action) : Prop :=
  (∀ score ∈ s.completedScore a, ∀ k ∈ s.recordedKey a, ∀ r ∈ settled start s k, r.score ≤ score)
    ∧ ∀ p ∈ s.rolledBack a, ∀ k ∈ p.key, s.store.ours p k = true → MayReturn start s p k

instance (start : OrdMap (List UInt8) EpisodeRecord) (s : RssState) (k : EpisodeKey) : Decidable (Follows start s k) :=
  inferInstanceAs (Decidable (_ ∧ _))

instance (s : RssState) (a : Action) : Decidable (RoomFor s a) := inferInstanceAs (Decidable (∀ _ ∈ _, _))

instance (start : OrdMap (List UInt8) EpisodeRecord) (s : RssState) (p : PendingDownload) (k : EpisodeKey) :
    Decidable (MayReturn start s p k) := inferInstanceAs (Decidable (_ ∨ _))

instance (start : OrdMap (List UInt8) EpisodeRecord) (s : RssState) (a : Action) : Decidable (Orderly start s a) :=
  inferInstanceAs (Decidable (_ ∧ _))

end RssState

end Risuko
