import Mathlib.Tactic

/-!
# The trackers of a private torrent

The part of `torrent.rs` that decides which tracker is announced to next: the tiers collected from the metadata, the state kept for
every URL, `TrackerRunState::pick`, the settling of an announce, the commands that edit the deadlines, and the loop of
`run_tracker_tier_poller` with its one announce at a time. An instant is a number of nanoseconds.
-/

namespace Risuko

def u32Max : Nat := 2 ^ 32 - 1

/-- A number of seconds. -/
def secs (n : Nat) : Nat := n * 10 ^ 9

def trackerMinInterval : Nat := secs 60

def trackerMaxInterval : Nat := secs (2 * 60 * 60)

def trackerTransportRetryMax : Nat := secs (10 * 60)

/-! ## Tiers -/

/-- The URLs that are not in `seen` nor repeated, and all that are seen then: a filter by `seen.insert(url)`. -/
def unseen : List String → List String → List String × List String
  | seen, [] => ([], seen)
  | seen, url :: urls =>
    if seen.contains url then unseen seen urls
    else (url :: (unseen (url :: seen) urls).1, (unseen (url :: seen) urls).2)

def swapAt (urls : List String) (i j : Nat) : List String :=
  match urls[i]?, urls[j]? with
  | some a, some b => (urls.set i b).set j a
  | _, _ => urls

/-- `shuffle_tier`, with the random numbers it draws. -/
def shuffleTier (random : Nat → Nat) (urls : List String) : List String :=
  ((List.range urls.length).drop 1).reverse.foldl (fun urls i => swapAt urls i (random i % (i + 1))) urls

/-- Drop the URLs of earlier tiers, and shuffle what is left of each. -/
def dedupTiers (random : Nat → Nat → Nat) : Nat → List String → List (List String) → List (List String)
  | _, _, [] => []
  | n, seen, tier :: tiers =>
    shuffleTier (random n) (unseen seen tier).1 :: dedupTiers random (n + 1) (unseen seen tier).2 tiers

/-- `collect_tracker_tiers`, from the tiers the metadata declares. -/
def collectTrackerTiers (random : Nat → Nat → Nat) (declared : List (List String)) : List (List String) :=
  (dedupTiers random 0 [] declared).filter (fun tier => !tier.isEmpty)

def isHttp (url : String) : Bool := url.startsWith "http://" || url.startsWith "https://"

/-- `collect_obfuscated_tiers`. -/
def collectObfuscatedTiers (random : Nat → Nat → Nat) (declared : List (List String)) : List (List String) :=
  (dedupTiers random 0 [] (declared.map (fun tier => tier.filter isHttp))).filter (fun tier => !tier.isEmpty)

/-- `collect_announce_tiers`. -/
def collectAnnounceTiers (random random' : Nat → Nat → Nat) (obfuscated declared : List (List String)) : List (List String) :=
  let tiers := collectObfuscatedTiers random obfuscated
  let plain := (collectTrackerTiers random' declared).map (fun tier => tier.filter (fun url => !tiers.flatten.contains url))
  tiers ++ plain.filter (fun tier => !tier.isEmpty)

/-- `normalize_tracker_urls`, on the URLs found in what the user gave. -/
def normalizeTrackerUrls (parts existing : List String) : List String := (unseen existing parts).1

/-! ## One URL -/

inductive AnnounceEvent
  | none
  | started
  | stopped
  | completed
  deriving DecidableEq

/-- What a tracker answers, as far as it is kept. -/
structure AnnounceResponse where
  interval : Nat
  minInterval : Option Nat
  seeders : Option Nat
  leechers : Option Nat
  trackerId : Option (List UInt8)

inductive RetryIn
  | never
  | after (wait : Nat)

inductive TrackerError
  | io
  | http
  | bencode
  | rejected (retryIn : Option RetryIn)
  | unsupportedScheme
  | timeout
  | url

structure TrackerUrlState where
  url : String
  nextAt : Nat
  minNextAt : Nat
  failures : Nat
  startedSent : Bool
  completedSent : Bool
  disabled : Bool
  trackerId : Option (List UInt8)
  seeders : Option Nat
  leechers : Option Nat

/-- `clamp_tracker_interval`. -/
def clampTrackerInterval (interval : Nat) (minInterval : Option Nat) : Nat :=
  let floor := minInterval.elim trackerMinInterval (fun m => min (max m trackerMinInterval) trackerMaxInterval)
  min (max interval floor) trackerMaxInterval

def backoffSecs : List Nat := [15, 30, 60, 120, 300, 600, 1200, 2400, 3600]

/-- `tracker_retry_delay`. -/
def trackerRetryDelay (consecutiveFailures : Nat) : Nat :=
  secs (backoffSecs.getD (min (consecutiveFailures - 1) (backoffSecs.length - 1)) 0)

namespace TrackerUrlState

/-- The state of a URL that was not announced to, as `tracker_url_states` makes it. -/
def fresh (url : String) (nextAt : Nat) : TrackerUrlState where
  url := url
  nextAt := nextAt
  minNextAt := nextAt
  failures := 0
  startedSent := false
  completedSent := false
  disabled := false
  trackerId := none
  seeders := none
  leechers := none

def isWorking (e : TrackerUrlState) : Bool := e.startedSent && decide (e.failures = 0)

/-- `announce_event`. -/
def announceEvent (e : TrackerUrlState) (finished : Bool) : AnnounceEvent :=
  if !e.startedSent then .started
  else if finished && !e.completedSent then .completed
  else .none

def recordSuccess (e : TrackerUrlState) (event : AnnounceEvent) (finishedAtSend finishedNow : Bool) (resp : AnnounceResponse)
    (now : Nat) : TrackerUrlState :=
  let completedSent := if event = .started then e.completedSent || finishedAtSend
    else if event = .completed then true else e.completedSent
  { e with
    failures := 0
    startedSent := if event = .started then true else e.startedSent
    completedSent := completedSent
    minNextAt := now + resp.minInterval.elim 0 (fun m => min m trackerMaxInterval)
    nextAt := if finishedNow && !completedSent then now else now + clampTrackerInterval resp.interval resp.minInterval
    trackerId := resp.trackerId.orElse (fun _ => e.trackerId)
    seeders := resp.seeders
    leechers := resp.leechers }

/-- The count of failures saturates. -/
def bumpFailures (e : TrackerUrlState) : TrackerUrlState := { e with failures := min (e.failures + 1) u32Max }

/-- `record_failure`: the state, and the delay until the next try. -/
def recordFailure (e : TrackerUrlState) (error : TrackerError) (now : Nat) : TrackerUrlState × Option Nat :=
  match error with
  | .unsupportedScheme | .rejected (some .never) => ({ e.bumpFailures with disabled := true }, none)
  | .rejected (some (.after wait)) =>
    let delay := max (trackerRetryDelay e.bumpFailures.failures) wait
    ({ e.bumpFailures with minNextAt := max e.minNextAt (now + wait), nextAt := now + delay }, some delay)
  | .io | .timeout | .http =>
    let delay := min (trackerRetryDelay e.bumpFailures.failures) trackerTransportRetryMax
    ({ e.bumpFailures with nextAt := now + delay }, some delay)
  | .bencode | .rejected none | .url =>
    let delay := trackerRetryDelay e.bumpFailures.failures
    ({ e.bumpFailures with nextAt := now + delay }, some delay)

/-- What `announce_now` does with a URL. -/
def announceNow (e : TrackerUrlState) (completion : Bool) (now : Nat) : TrackerUrlState :=
  if e.isWorking && decide (e.nextAt > now) && (!completion || !e.completedSent) then
    { e with nextAt := min e.nextAt (if completion then now else max now e.minNextAt) }
  else e

/-- What `retry_failed_now` does with a URL. -/
def retryFailedNow (e : TrackerUrlState) (now : Nat) : TrackerUrlState :=
  if !e.disabled && decide (e.failures > 0) then { e with nextAt := min e.nextAt (max now e.minNextAt) } else e

end TrackerUrlState

/-! ## All URLs -/

inductive TrackerPick
  | due (tier index : Nat)
  | idle (until' : Option Nat)
  deriving DecidableEq

structure TrackerRunState where
  tiers : List (List TrackerUrlState)
  lastSuccessfulTier : Option Nat

namespace TrackerRunState

/-- `run_state`, for an info hash that has none yet: the tiers of the poller, and those appended that are not among them. -/
def start (tiers appended : List (List String)) (now : Nat) : TrackerRunState where
  tiers := (tiers ++ appended.filter (fun tier => !tiers.contains tier)).map (fun tier => tier.map (fun url => .fresh url now))
  lastSuccessfulTier := none

/-- The tier the walk of `pick` starts from: the one that last answered, if anything in it works. -/
def current (s : TrackerRunState) : Option Nat :=
  s.lastSuccessfulTier.filter (fun tier => (s.tiers[tier]?).any (fun urls => urls.any TrackerUrlState.isWorking))

/-- What the two loops of `pick` walk over. -/
def candidates (s : TrackerRunState) : List (Nat × Nat × TrackerUrlState) :=
  (s.tiers.zipIdx.drop (s.current.getD 0)).flatMap (fun t => t.1.zipIdx.map (fun e => (t.2, e.2, e.1)))

/-- The loops of `pick`. -/
def scan (now : Nat) : Option Nat → List (Nat × Nat × TrackerUrlState) → TrackerPick
  | earliest, [] => .idle earliest
  | earliest, (tier, index, entry) :: rest =>
    if entry.disabled then scan now earliest rest
    else if entry.nextAt ≤ now then .due tier index
    else
      let earliest := some (earliest.elim entry.nextAt (fun at_ => min at_ entry.nextAt))
      if entry.isWorking then .idle earliest else scan now earliest rest

def pick (s : TrackerRunState) (now : Nat) : TrackerPick := scan now none s.candidates

/-- The state `pick` has found due. -/
def entryAt (s : TrackerRunState) (tier index : Nat) : Option TrackerUrlState := (s.tiers[tier]?).bind (fun urls => urls[index]?)

/-- The state of a URL, updated and moved to the front of its tier. -/
def promote (url : String) (record : TrackerUrlState → TrackerUrlState) (urls : List TrackerUrlState) : List TrackerUrlState :=
  match urls.findIdx? (fun entry => entry.url = url) with
  | none => urls
  | some index =>
    match urls[index]? with
    | none => urls
    | some entry => record entry :: urls.eraseIdx index

/-- The state of a URL, updated in its place. -/
def update (url : String) (record : TrackerUrlState → TrackerUrlState) (urls : List TrackerUrlState) : List TrackerUrlState :=
  match urls.findIdx? (fun entry => entry.url = url) with
  | none => urls
  | some index => urls.modify index record

/-- `settle_tier_success`: the state, and whether the tier changed. -/
def settleTierSuccess (s : TrackerRunState) (tier : Nat) (url : String) (event : AnnounceEvent) (finishedAtSend finishedNow : Bool)
    (resp : AnnounceResponse) (now : Nat) : TrackerRunState × Bool :=
  ({ tiers := s.tiers.modify tier (promote url (fun e => e.recordSuccess event finishedAtSend finishedNow resp now))
     lastSuccessfulTier := some tier }, s.lastSuccessfulTier.any (fun previous => previous ≠ tier))

/-- `settle_tier_failure`. -/
def settleTierFailure (s : TrackerRunState) (tier : Nat) (url : String) (error : TrackerError) (now : Nat) : TrackerRunState :=
  { s with tiers := s.tiers.modify tier (update url (fun e => (e.recordFailure error now).1)) }

/-- `append_tier`. -/
def appendTier (s : TrackerRunState) (urls : List String) (now : Nat) : TrackerRunState :=
  if urls.isEmpty then s else { s with tiers := s.tiers ++ [urls.map (fun url => .fresh url now)] }

/-- `announce_now`. -/
def announceNow (s : TrackerRunState) (completion : Bool) (now : Nat) : TrackerRunState :=
  { s with tiers := s.tiers.map (fun urls => urls.map (fun e => e.announceNow completion now)) }

/-- `retry_failed_now`. -/
def retryFailedNow (s : TrackerRunState) (now : Nat) : TrackerRunState :=
  { s with tiers := s.tiers.map (fun urls => urls.map (fun e => e.retryFailedNow now)) }

end TrackerRunState

/-! ## The poller -/

/-- An announce that is under way. -/
structure Announce where
  tier : Nat
  selected : TrackerUrlState
  event : AnnounceEvent
  finished : Bool

/-- The loop of `run_tracker_tier_poller`, between two of its await points. -/
structure TrackerPoller where
  run : TrackerRunState
  announcing : Option Announce

/-- The steps of the poller, and the commands that reach its state in between. -/
inductive TrackerOp
  | poll (finished : Bool)
  | succeed (resp : AnnounceResponse) (finishedNow : Bool)
  | fail (error : TrackerError)
  | appendTier (parts existing : List String)
  | announceNow (completion : Bool)
  | retryFailedNow

namespace TrackerPoller

/-- The pick of the loop: what is due is announced to, else the poller sleeps. -/
def poll (p : TrackerPoller) (finished : Bool) (now : Nat) : TrackerPoller :=
  match p.announcing with
  | some _ => p
  | none =>
    match p.run.pick now with
    | .idle _ => p
    | .due tier index =>
      match p.run.entryAt tier index with
      | none => p
      | some selected => { p with announcing := some ⟨tier, selected, selected.announceEvent finished, finished⟩ }

def succeed (p : TrackerPoller) (resp : AnnounceResponse) (finishedNow : Bool) (now : Nat) : TrackerPoller :=
  match p.announcing with
  | none => p
  | some a => ⟨(p.run.settleTierSuccess a.tier a.selected.url a.event a.finished finishedNow resp now).1, none⟩

def fail (p : TrackerPoller) (error : TrackerError) (now : Nat) : TrackerPoller :=
  match p.announcing with
  | none => p
  | some a => ⟨p.run.settleTierFailure a.tier a.selected.url error now, none⟩

end TrackerPoller

def TrackerOp.apply (p : TrackerPoller) (now : Nat) : TrackerOp → TrackerPoller
  | poll finished => p.poll finished now
  | succeed resp finishedNow => p.succeed resp finishedNow now
  | fail error => p.fail error now
  | appendTier parts existing => { p with run := p.run.appendTier (normalizeTrackerUrls parts existing) now }
  | announceNow completion => { p with run := p.run.announceNow completion now }
  | retryFailedNow => { p with run := p.run.retryFailedNow now }

/-- The step is the failure of an announce to `url`. -/
def TrackerOp.Fails (p : TrackerPoller) (url : String) : TrackerOp → Prop
  | fail _ => p.announcing.any (fun a => a.selected.url = url) = true
  | _ => False

end Risuko

/-!
## The announces to one tracker

The two pollers of `torrent.rs` and the commands of the torrent, as far as they concern one tracker URL. `run_tracker_swarm_poller` reads
whether the torrent is finished before it looks which URLs are due, `run_tracker_tier_poller` after its pick. A step of a poller lies
between two accesses to what it shares with the torrent. `sent` and `given` are ghosts: the announces sent so far, and until when the
tracker's last answer asks to wait.
-/

namespace Risuko

/-- How far a poller is with the URL. -/
inductive AnnouncePhase
  | idle
  | flagRead (finished : Bool)
  | picked (selected : TrackerUrlState)
  | sent (event : AnnounceEvent) (finished : Bool)

/-- An announce: its event, the clock, and what the URL and the tracker ask to wait for at that moment. -/
structure SentAnnounce where
  event : AnnounceEvent
  time : Nat
  minNextAt : Nat
  given : Nat

structure AnnounceRun where
  entry : TrackerUrlState
  /-- `finished` of the stats of the torrent. -/
  finished : Bool
  phase : AnnouncePhase
  clock : Nat
  given : Nat
  sent : List SentAnnounce

inductive TrackerAction
  /-- The torrent is complete. -/
  | finish
  /-- `run_tracker_swarm_poller` reads the flag, and then looks at the URL. -/
  | readFlag
  | check (now : Nat)
  /-- `run_tracker_tier_poller` picks the URL, reads the flag and announces. -/
  | pick (now : Nat)
  | send
  /-- An announce has its result. -/
  | succeed (resp : AnnounceResponse) (finishedNow : Bool) (now : Nat)
  | fail (error : TrackerError) (now : Nat)
  | announceNow (completion : Bool) (now : Nat)
  | retryFailedNow (now : Nat)
  /-- The poller is shut down, with a last announce or without. -/
  | stop (stopped : Bool) (now : Nat)

namespace AnnounceRun

/-- The entry is due at a reading of the clock. -/
def due (e : TrackerUrlState) (now : Nat) : Bool := !e.disabled && decide (e.nextAt ≤ now)

/-- An announce leaves. -/
def announce (s : AnnounceRun) (event : AnnounceEvent) (finished : Bool) (now : Nat) : AnnounceRun :=
  { s with
    phase := .sent event finished
    clock := max s.clock now
    sent := ⟨event, now, s.entry.minNextAt, s.given⟩ :: s.sent }

/-- Until when the tracker asks to wait by its answer. -/
def givenBy (resp : AnnounceResponse) (now : Nat) : Nat := resp.minInterval.elim 0 fun m => now + min m trackerMaxInterval

/-- Until when it asks to wait by an error, where it says so. -/
def givenByError (error : TrackerError) (now : Nat) : Option Nat :=
  match error with
  | .rejected (some (.after wait)) => some (now + wait)
  | _ => none

/-- What `announce_stopped` does with the URL. -/
def announceStopped (e : TrackerUrlState) (now : Nat) : TrackerUrlState :=
  if e.startedSent then { e with startedSent := false, nextAt := if e.failures = 0 then now else e.nextAt } else e

def step (s : AnnounceRun) : TrackerAction → Option AnnounceRun
  | .finish => some { s with finished := true }
  | .readFlag =>
    match s.phase with
    | .idle => some { s with phase := .flagRead s.finished }
    | _ => none
  | .check now =>
    match s.phase with
    | .flagRead finished =>
      if due s.entry now then some (s.announce (s.entry.announceEvent finished) finished now) else some { s with phase := .idle }
    | _ => none
  | .pick now =>
    match s.phase with
    | .idle => if due s.entry now then some { s with phase := .picked s.entry, clock := max s.clock now } else none
    | _ => none
  | .send =>
    match s.phase with
    | .picked selected => some (s.announce (selected.announceEvent s.finished) s.finished s.clock)
    | _ => none
  | .succeed resp finishedNow now =>
    match s.phase with
    | .sent event finished =>
      -- the flag is read before the result is recorded, so it may have risen since
      if s.clock ≤ now ∧ (finishedNow → s.finished) then
        some { s with
          entry := s.entry.recordSuccess event finished finishedNow resp now
          phase := .idle
          clock := now
          given := givenBy resp now }
      else none
    | _ => none
  | .fail error now =>
    match s.phase with
    | .sent _ _ =>
      if s.clock ≤ now then
        some { s with
          entry := (s.entry.recordFailure error now).1
          phase := .idle
          clock := now
          given := (givenByError error now).getD s.given }
      else none
    | _ => none
  | .announceNow completion now =>
    -- the torrent announces its completion once it is finished
    if s.clock ≤ now ∧ (completion → s.finished) then some { s with entry := s.entry.announceNow completion now, clock := now } else none
  | .retryFailedNow now => if s.clock ≤ now then some { s with entry := s.entry.retryFailedNow now, clock := now } else none
  | .stop stopped now =>
    if s.clock ≤ now then
      some { s with entry := if stopped then announceStopped s.entry now else s.entry, phase := .idle, clock := now }
    else none

/-- A URL that was never announced to. -/
def Begins (s : AnnounceRun) : Prop :=
  ∃ url now, s.entry = .fresh url now ∧ s.phase = .idle ∧ s.given = 0 ∧ s.sent = []

end AnnounceRun

end Risuko
