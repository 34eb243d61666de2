import Mathlib.Data.UInt
import Risuko.Lemmas.Availability
import Risuko.Lemmas.Trackers
import Risuko.Lib.Reach

/-!
# Trackers and availability

When the trackers of a torrent are asked, and what its peers have.
-/

namespace Risuko

/-!
## Trackers: when a private torrent switches

The poller announces to the URL that last answered until an announce to it fails, whatever the commands do to the deadlines and the
tiers in between, and it sleeps no longer than until the next URL it walks over is due.
-/

/-- The poller before its first pick: the tiers are those of the metadata and those the user has added. -/
def TrackerPoller.Starts (p : TrackerPoller) : Prop :=
  ∃ random random' obfuscated declared, ∃ added appended : List (List String × List String), ∃ now,
    p = ⟨.start (collectAnnounceTiers random random' obfuscated declared ++ added.map (fun t => normalizeTrackerUrls t.1 t.2))
      (appended.map (fun t => normalizeTrackerUrls t.1 t.2)) now, none⟩

/-- A run of the tier poller. -/
def PollerRun : TrackerPoller → Prop := Reach TrackerPoller.Starts (fun p p' => ∃ (op : TrackerOp) (now : Nat), p' = op.apply p now)

/-- What is reached from a state while no announce to the URL fails. -/
def RunKeeping (url : String) (p : TrackerPoller) : TrackerPoller → Prop :=
  Reach (fun q => q = p) (fun q q' => ∃ (op : TrackerOp) (now : Nat), ¬ op.Fails q url ∧ q' = op.apply q now)

/-- At the start no URL is twice in a tier. -/
theorem TrackerPoller.Starts.ready {p : TrackerPoller} (h : p.Starts) : p.Ready := by
  obtain ⟨random, random', obfuscated, declared, added, appended, now, rfl⟩ := h
  have hgiven : ∀ (ts : List (List String × List String)), ∀ tier ∈ ts.map (fun t => normalizeTrackerUrls t.1 t.2), tier.Nodup := by
    intro ts tier htier
    obtain ⟨t, _, rfl⟩ := List.mem_map.mp htier
    exact (TrackerRunState.unseen_nodup t.2 t.1).1
  refine ⟨TrackerRunState.distinct_start ?_ (hgiven appended) now, fun a ha => (by cases ha)⟩
  intro tier htier
  rcases List.mem_append.mp htier with hmeta | hadded
  · exact TrackerRunState.collectAnnounceTiers_nodup random random' obfuscated declared tier hmeta
  · exact hgiven added tier hadded

/-- The poller is ready after every run. -/
theorem PollerRun.ready {p : TrackerPoller} (h : PollerRun p) : p.Ready := by
  refine Reach.invariant (fun p hp => hp.ready) ?_ h
  rintro p p' hp ⟨op, now, rfl⟩
  exact hp.apply op now

/-- In every run, once an announce has succeeded `pick` finds no other URL due until an announce to that URL has failed. And
whenever `pick` finds nothing due, the instant it gives is the one at which it does: before it `pick` gives the same instant, from
it on some URL is due, and where it gives none no URL ever is. -/
theorem tracker_switching (p : TrackerPoller) (h : PollerRun p) :
    (∀ a resp finishedNow now, p.announcing = some a → ∀ q, RunKeeping a.selected.url (p.succeed resp finishedNow now) q →
      ∀ later tier index, q.run.pick later = .due tier index → ∃ e, q.run.entryAt tier index = some e ∧ e.url = a.selected.url) ∧
      (∀ now until', p.run.pick now = .idle until' → ∀ later,
        ((∀ instant, until' = some instant → later < instant) → p.run.pick later = .idle until') ∧
        (∀ instant, until' = some instant → instant ≤ later → ∃ tier index, p.run.pick later = .due tier index)) := by
  refine ⟨fun a resp finishedNow now ha q hq later tier index hpick => ?_, fun now until' hidle later => ⟨fun hbefore => ?_, ?_⟩⟩
  · have hstays : q.StaysWith a.selected.url := by
      refine Reach.invariant ?_ ?_ hq
      · rintro q rfl
        exact h.ready.staysWith ha resp finishedNow now
      · rintro q q' hq ⟨op, now, hop, rfl⟩
        exact hq.apply hop now
    exact (hstays.pick hpick).2
  · exact TrackerRunState.scan_before hidle hbefore
  · rintro instant rfl hle
    rcases TrackerRunState.scan_after hidle hle with ⟨tier, index, hdue⟩ | hnone
    · exact ⟨tier, index, hdue none⟩
    · cases hnone

/-- The poller of a torrent with two tiers. -/
def beforeAsking : TrackerPoller :=
  ⟨.start (collectAnnounceTiers (fun _ i => i) (fun _ i => i) [] [["http://a", "http://b", "http://a"], ["udp://c"]] ++ []) [] 0, none⟩

/-- The second tracker is asked after the first has failed. -/
def askingBackup : TrackerPoller :=
  ((beforeAsking.poll false 1).fail .timeout 2).poll false 3

theorem askingBackup_run : PollerRun askingBackup := by
  have hstart : beforeAsking.Starts :=
    ⟨fun _ i => i, fun _ i => i, [], [["http://a", "http://b", "http://a"], ["udp://c"]], [], [], 0, rfl⟩
  have hasked : PollerRun (beforeAsking.poll false 1) := .step (.init hstart) ⟨.poll false, 1, rfl⟩
  have hfailed : PollerRun ((beforeAsking.poll false 1).fail .timeout 2) := .step hasked ⟨.fail .timeout, 2, rfl⟩
  exact .step hfailed ⟨.poll false, 3, rfl⟩

/-- What the backup answers. -/
def backupAnswer : AnnounceResponse where
  interval := secs 1800
  minInterval := none
  seeders := some 3
  leechers := none
  trackerId := none

/-- After a success of the backup nothing is due until its interval is over. -/
theorem tracker_switching_backup :
    PollerRun askingBackup ∧ askingBackup.announcing.map (fun a => a.selected.url) = some "http://b" ∧
      (askingBackup.succeed backupAnswer false 4).run.pick (secs 20) = .idle (some (4 + secs 1800)) ∧
      (askingBackup.succeed backupAnswer false 4).run.pick (secs 2000) = .due 0 0 ∧
      ∃ e, (askingBackup.succeed backupAnswer false 4).run.entryAt 0 0 = some e ∧ e.url = "http://b" := by
  have hdue : (askingBackup.succeed backupAnswer false 4).run.pick (secs 2000) = .due 0 0 := by decide +kernel
  have hidle : (askingBackup.succeed backupAnswer false 4).run.pick (secs 20) = .idle (some (4 + secs 1800)) := by decide +kernel
  have hasked : askingBackup.announcing.map (fun a => a.selected.url) = some "http://b" := by decide +kernel
  obtain ⟨a, ha, hurl⟩ := Option.map_eq_some_iff.mp hasked
  obtain ⟨e, he, heurl⟩ := (tracker_switching askingBackup askingBackup_run).1 a backupAnswer false 4 ha _ (.init rfl) _ 0 0 hdue
  exact ⟨askingBackup_run, hasked, hidle, hdue, e, he, heurl.trans hurl⟩

/-!
## The minimum interval of a tracker

An announce without an event waits until the tracker allows it. A deadline may lie before that time only while an event is owed
(`Held.order`), so what goes wrong is a poller that does not know of the event: one that has read the flag before it rose.
-/

/-! ### The operations -/

namespace TrackerUrlState

/-- The interval that is waited for is at least the one the tracker asks for, up to the maximum. -/
theorem le_clampTrackerInterval (interval : Nat) (minInterval : Option Nat) :
    minInterval.elim 0 (fun m => min m trackerMaxInterval) ≤ clampTrackerInterval interval minInterval := by
  unfold clampTrackerInterval
  cases minInterval with
  | none => exact Nat.zero_le _
  | some m =>
    simp only [Option.elim_some]
    omega

variable {e : TrackerUrlState}

/-- What a failure does beside counting it: a delay after which the next try is due, and a time the tracker asks to wait until. -/
theorem recordFailure_eq (e : TrackerUrlState) (error : TrackerError) (now : Nat) :
    (∃ delay, (e.recordFailure error now).1 = { e.bumpFailures with
        minNextAt := max e.minNextAt ((AnnounceRun.givenByError error now).getD 0)
        nextAt := now + max delay ((AnnounceRun.givenByError error now).getD 0 - now) })
      ∨ (AnnounceRun.givenByError error now = none ∧ (e.recordFailure error now).1 = { e.bumpFailures with disabled := true }) := by
  unfold recordFailure AnnounceRun.givenByError
  have hmin : e.bumpFailures.minNextAt = e.minNextAt := rfl
  generalize trackerRetryDelay e.bumpFailures.failures = delay
  generalize trackerTransportRetryMax = most
  generalize e.bumpFailures = bumped at hmin ⊢
  have hplain : ∀ d : Nat, ({ bumped with nextAt := now + d } : TrackerUrlState) =
      { bumped with minNextAt := max e.minNextAt 0, nextAt := now + max d (0 - now) } := by
    intro d
    rw [Nat.max_zero, Nat.zero_sub, Nat.max_zero, ← hmin]
  cases error with
  | io | http | timeout => exact .inl ⟨min delay most, hplain _⟩
  | bencode | url => exact .inl ⟨delay, hplain _⟩
  | unsupportedScheme => exact .inr ⟨rfl, rfl⟩
  | rejected retryIn =>
    rcases retryIn with _ | _ | wait
    · exact .inl ⟨delay, hplain _⟩
    · exact .inr ⟨rfl, rfl⟩
    · refine .inl ⟨delay, ?_⟩
      rw [Option.getD_some, Nat.add_sub_cancel_left]

/-- A failure keeps what was announced, and does not bring the deadline of the tracker forward. -/
theorem recordFailure_keeps (e : TrackerUrlState) (error : TrackerError) (now : Nat) :
    (e.recordFailure error now).1.startedSent = e.startedSent ∧ (e.recordFailure error now).1.completedSent = e.completedSent
      ∧ max e.minNextAt ((AnnounceRun.givenByError error now).getD 0) ≤ (e.recordFailure error now).1.minNextAt := by
  rcases recordFailure_eq e error now with ⟨delay, heq⟩ | ⟨hnone, heq⟩
  · rw [heq]
    exact ⟨rfl, rfl, le_rfl⟩
  · rw [heq, hnone]
    exact ⟨rfl, rfl, (Nat.max_zero _).le⟩

/-- After a failure of an announce that was allowed the next try is allowed too, or the URL is given up and nothing was moved. -/
theorem recordFailure_order (error : TrackerError) {now : Nat} (h : e.minNextAt ≤ now) :
    (e.recordFailure error now).1.minNextAt ≤ (e.recordFailure error now).1.nextAt
      ∨ (e.recordFailure error now).1.minNextAt = e.minNextAt ∧ (e.recordFailure error now).1.nextAt = e.nextAt := by
  rcases recordFailure_eq e error now with ⟨delay, heq⟩ | ⟨hnone, heq⟩
  · rw [heq]
    left
    simp only
    omega
  · rw [heq]
    exact .inr ⟨rfl, rfl⟩

/-- A manual announce changes neither what the tracker was told nor the time it allows. -/
theorem announceNow_keeps (e : TrackerUrlState) (completion : Bool) (now : Nat) :
    (e.announceNow completion now).startedSent = e.startedSent ∧ (e.announceNow completion now).completedSent = e.completedSent
      ∧ (e.announceNow completion now).minNextAt = e.minNextAt := by
  unfold announceNow
  split <;> exact ⟨rfl, rfl, rfl⟩

/-- A manual announce is not before the time the tracker allows; the announce of the completion may be, where that is owed. -/
theorem announceNow_order (completion : Bool) (now : Nat) (h : e.minNextAt ≤ e.nextAt) :
    e.minNextAt ≤ (e.announceNow completion now).nextAt ∨ (completion = true ∧ e.completedSent = false) := by
  unfold announceNow
  split
  · rename_i hdue
    cases completion with
    | false =>
      left
      simp only [Bool.false_eq_true, if_false]
      omega
    | true =>
      right
      simpa using (Bool.and_eq_true_iff.mp hdue).2
  · exact .inl h

/-- Nor does a retry, which keeps the deadline behind that time. -/
theorem retryFailedNow_keeps (e : TrackerUrlState) (now : Nat) :
    (e.retryFailedNow now).startedSent = e.startedSent ∧ (e.retryFailedNow now).completedSent = e.completedSent
      ∧ (e.retryFailedNow now).minNextAt = e.minNextAt ∧ (e.minNextAt ≤ e.nextAt → e.minNextAt ≤ (e.retryFailedNow now).nextAt) := by
  unfold retryFailedNow
  split
  · refine ⟨rfl, rfl, rfl, fun h => ?_⟩
    simp only
    omega
  · exact ⟨rfl, rfl, rfl, id⟩

end TrackerUrlState

namespace AnnounceRun

/-! ### The invariant -/

/-- The tracker is owed an event. -/
def Owed (e : TrackerUrlState) (finished : Bool) : Prop := e.startedSent = false ∨ (finished = true ∧ e.completedSent = false)

/-- What is so while an announce is under way. An event that was sent stays owed until the announce has succeeded. -/
def SentOk (s : AnnounceRun) : AnnounceEvent → Prop
  | .none => s.entry.startedSent = true ∧ s.entry.minNextAt ≤ s.clock
  | .started => s.entry.startedSent = false
  | .completed => s.entry.startedSent = true ∧ s.finished = true ∧ s.entry.completedSent = false
  | .stopped => False

def PhaseOk (s : AnnounceRun) : Prop :=
  match s.phase with
  | .idle => True
  | .flagRead finished => finished = true → s.finished = true
  | .picked selected => selected.startedSent = s.entry.startedSent ∧ selected.completedSent = s.entry.completedSent
      ∧ (s.entry.minNextAt ≤ s.clock ∨ Owed s.entry s.finished)
  | .sent event _ => s.SentOk event

/-- An announce without an event was allowed. -/
def Allowed (a : SentAnnounce) : Prop := a.event = .none → a.minNextAt ≤ a.time ∧ a.given ≤ a.time

structure Held (s : AnnounceRun) : Prop where
  order : s.entry.minNextAt ≤ s.entry.nextAt ∨ Owed s.entry s.finished
  given : s.given ≤ s.entry.minNextAt
  phase : s.PhaseOk
  sent : ∀ a ∈ s.sent, Allowed a

/-- The swarm poller looks at the URL with the flag as it is. -/
def Current (s : AnnounceRun) (a : TrackerAction) : Prop :=
  match a, s.phase with
  | .check _, .flagRead finished => finished = s.finished
  | _, _ => True

instance (s : AnnounceRun) (a : TrackerAction) : Decidable (Current s a) := by
  unfold Current
  split <;> infer_instance

variable {s : AnnounceRun}

/-- The event is what the tracker has not been told, and none when it has been told all. -/
theorem announceEvent_owed {e : TrackerUrlState} {finished : Bool} :
    (e.announceEvent finished = .none → e.startedSent = true ∧ ¬ Owed e finished)
      ∧ (e.announceEvent finished = .started → e.startedSent = false)
      ∧ (e.announceEvent finished = .completed → e.startedSent = true ∧ finished = true ∧ e.completedSent = false)
      ∧ e.announceEvent finished ≠ .stopped := by
  unfold TrackerUrlState.announceEvent Owed
  cases e.startedSent <;> cases finished <;> cases e.completedSent <;> simp

/-- An announce leaves at a time that is allowed, unless an event is owed. -/
theorem Held.announce (h : s.Held) {e : TrackerUrlState} (hstarted : e.startedSent = s.entry.startedSent)
    (hcompleted : e.completedSent = s.entry.completedSent) {finished : Bool} (hfinished : finished = s.finished) {now : Nat}
    (hdue : s.entry.minNextAt ≤ now ∨ Owed s.entry s.finished) : (s.announce (e.announceEvent finished) finished now).Held := by
  have howed : Owed e finished ↔ Owed s.entry s.finished := by rw [Owed, Owed, hstarted, hcompleted, hfinished]
  obtain ⟨hnone, hstart, hcomplete, hstopped⟩ := @announceEvent_owed e finished
  refine ⟨h.order, h.given, ?_, List.forall_mem_cons.mpr ⟨fun hevent => ?_, h.sent⟩⟩
  · show SentOk _ (e.announceEvent finished)
    cases hevent : e.announceEvent finished with
    | none =>
      obtain ⟨hs, hnot⟩ := hnone hevent
      have hmin := hdue.resolve_right fun ho => hnot (howed.mpr ho)
      exact ⟨hstarted ▸ hs, hmin.trans (le_max_right _ _)⟩
    | started => exact hstarted.symm.trans (hstart hevent)
    | completed =>
      obtain ⟨hs, hf, hc⟩ := hcomplete hevent
      exact ⟨hstarted ▸ hs, hfinished ▸ hf, hcompleted ▸ hc⟩
    | stopped => exact absurd hevent hstopped
  · have hmin := hdue.resolve_right fun ho => (hnone hevent).2 (howed.mpr ho)
    exact ⟨hmin, h.given.trans hmin⟩

/-- A command keeps what was announced and what the tracker asks for, and moves the deadline where that is allowed or an event is owed. -/
theorem Held.retime (h : s.Held) {e : TrackerUrlState} (hstarted : e.startedSent = s.entry.startedSent)
    (hcompleted : e.completedSent = s.entry.completedSent) (hmin : e.minNextAt = s.entry.minNextAt)
    (horder : e.minNextAt ≤ e.nextAt ∨ Owed s.entry s.finished) {now : Nat} (hnow : s.clock ≤ now) :
    ({ s with entry := e, clock := now } : AnnounceRun).Held := by
  have howed : Owed e s.finished ↔ Owed s.entry s.finished := by rw [Owed, Owed, hstarted, hcompleted]
  refine ⟨horder.imp_right howed.mpr, by rw [hmin]; exact h.given, ?_, h.sent⟩
  have hphase := h.phase
  unfold PhaseOk at hphase ⊢
  cases hp : s.phase with
  | idle => trivial
  | flagRead finished =>
    rw [hp] at hphase
    exact hphase
  | picked selected =>
    rw [hp] at hphase
    obtain ⟨hs, hc, hd⟩ := hphase
    exact ⟨hs.trans hstarted.symm, hc.trans hcompleted.symm, hd.imp (fun hle => hmin ▸ hle.trans hnow) howed.mpr⟩
  | sent event finished =>
    rw [hp] at hphase
    show SentOk _ event
    cases event with
    | none => exact ⟨hstarted ▸ hphase.1, hmin ▸ hphase.2.trans hnow⟩
    | started => exact hstarted.trans hphase
    | completed => exact ⟨hstarted ▸ hphase.1, hphase.2.1, hcompleted ▸ hphase.2.2⟩
    | stopped => exact hphase.elim

/-- Once the download is finished more events may be owed, and none fewer. -/
theorem Held.finish (h : s.Held) : ({ s with finished := true } : AnnounceRun).Held := by
  have hmono : Owed s.entry s.finished → Owed s.entry true := fun ho => ho.imp_right fun hc => ⟨rfl, hc.2⟩
  refine ⟨h.order.imp_right hmono, h.given, ?_, h.sent⟩
  have hphase := h.phase
  unfold PhaseOk at hphase ⊢
  cases hp : s.phase with
  | idle => trivial
  | flagRead finished => exact fun _ => rfl
  | picked selected =>
    rw [hp] at hphase
    exact ⟨hphase.1, hphase.2.1, hphase.2.2.imp_right hmono⟩
  | sent event finished =>
    rw [hp] at hphase
    show SentOk _ event
    cases event with
    | none => exact hphase
    | started => exact hphase
    | completed => exact ⟨hphase.1, rfl, hphase.2.2⟩
    | stopped => exact hphase.elim

/-- An answer ends what was owed by the announce. Where the torrent has become complete in the meantime, that is owed now. -/
theorem Held.succeed (h : s.Held) (event : AnnounceEvent) (finished : Bool) (resp : AnnounceResponse) {finishedNow : Bool}
    (hfinished : finishedNow = true → s.finished = true) (now : Nat) :
    ({ s with
        entry := s.entry.recordSuccess event finished finishedNow resp now
        phase := .idle
        clock := now
        given := givenBy resp now } : AnnounceRun).Held := by
  have hclamp := TrackerUrlState.le_clampTrackerInterval resp.interval resp.minInterval
  refine ⟨?_, ?_, trivial, h.sent⟩
  · show (s.entry.recordSuccess event finished finishedNow resp now).minNextAt ≤ _ ∨ _
    unfold TrackerUrlState.recordSuccess
    by_cases howed : (finishedNow && !(if event = .started then s.entry.completedSent || finished
        else if event = .completed then true else s.entry.completedSent)) = true
    · right
      rw [Bool.and_eq_true, Bool.not_eq_true'] at howed
      exact .inr ⟨hfinished howed.1, howed.2⟩
    · left
      simp only [if_neg howed]
      exact Nat.add_le_add_left hclamp now
  · show givenBy resp now ≤ (s.entry.recordSuccess event finished finishedNow resp now).minNextAt
    unfold givenBy TrackerUrlState.recordSuccess
    cases resp.minInterval with
    | none => exact Nat.zero_le _
    | some m => exact le_rfl

/-- A failure leaves the event owed, or comes at a time that is allowed. -/
theorem Held.fail (h : s.Held) {event : AnnounceEvent} (hsent : s.SentOk event) (error : TrackerError) {now : Nat} (hnow : s.clock ≤ now) :
    ({ s with
        entry := (s.entry.recordFailure error now).1
        phase := .idle
        clock := now
        given := (givenByError error now).getD s.given } : AnnounceRun).Held := by
  obtain ⟨hstarted, hcompleted, hmin⟩ := s.entry.recordFailure_keeps error now
  have howed : Owed (s.entry.recordFailure error now).1 s.finished ↔ Owed s.entry s.finished := by rw [Owed, Owed, hstarted, hcompleted]
  refine ⟨?_, ?_, trivial, h.sent⟩
  · cases event with
    | none =>
      rcases TrackerUrlState.recordFailure_order error (hsent.2.trans hnow) with hle | ⟨hmin', hnext⟩
      · exact .inl hle
      · exact (h.order.imp (fun hle => by rw [hmin', hnext]; exact hle) howed.mpr)
    | started => exact .inr (howed.mpr (.inl hsent))
    | completed => exact .inr (howed.mpr (.inr hsent.2))
    | stopped => exact hsent.elim
  · show (givenByError error now).getD s.given ≤ _
    have hgiven := h.given
    cases herror : givenByError error now with
    | none =>
      rw [herror] at hmin
      exact hgiven.trans ((le_max_left _ _).trans hmin)
    | some until' =>
      rw [herror] at hmin
      exact (le_max_right _ _).trans hmin

/-- A shutdown leaves the start to be announced again. -/
theorem Held.stop (h : s.Held) (stopped : Bool) (now : Nat) :
    ({ s with entry := if stopped then announceStopped s.entry now else s.entry, phase := .idle, clock := now } : AnnounceRun).Held := by
  cases stopped with
  | false => exact ⟨h.order, h.given, trivial, h.sent⟩
  | true =>
    show ({ s with entry := announceStopped s.entry now, phase := .idle, clock := now } : AnnounceRun).Held
    unfold announceStopped
    split
    · exact ⟨.inr (.inl rfl), h.given, trivial, h.sent⟩
    · exact ⟨h.order, h.given, trivial, h.sent⟩

/-- Each step keeps the tracker waited for. -/
theorem Held.step (h : s.Held) {a : TrackerAction} (ha : Current s a) {s' : AnnounceRun} (hstep : s.step a = some s') : s'.Held := by
  have hphase := h.phase
  unfold AnnounceRun.step at hstep
  cases a with
  | finish =>
    cases hstep
    exact h.finish
  | readFlag =>
    dsimp only at hstep
    split at hstep
    · cases hstep
      exact ⟨h.order, h.given, id, h.sent⟩
    · cases hstep
  | check now =>
    dsimp only at hstep
    split at hstep
    · rename_i finished hp
      split at hstep
      · rename_i hdue
        cases hstep
        have hnext : s.entry.nextAt ≤ now := by simpa [due] using (Bool.and_eq_true_iff.mp hdue).2
        have hcurrent : finished = s.finished := by
          unfold Current at ha
          rw [hp] at ha
          exact ha
        exact h.announce rfl rfl hcurrent (h.order.imp_left fun hle => hle.trans hnext)
      · cases hstep
        exact ⟨h.order, h.given, trivial, h.sent⟩
    · cases hstep
  | pick now =>
    dsimp only at hstep
    split at hstep
    · split at hstep
      · rename_i hdue
        cases hstep
        have hnext : s.entry.nextAt ≤ now := by simpa [due] using (Bool.and_eq_true_iff.mp hdue).2
        exact ⟨h.order, h.given, ⟨rfl, rfl, h.order.imp_left fun hle => hle.trans (hnext.trans (le_max_right _ _))⟩, h.sent⟩
      · cases hstep
    · cases hstep
  | send =>
    dsimp only at hstep
    split at hstep
    · rename_i selected hp
      cases hstep
      unfold PhaseOk at hphase
      rw [hp] at hphase
      exact h.announce hphase.1 hphase.2.1 rfl hphase.2.2
    · cases hstep
  | succeed resp finishedNow now =>
    dsimp only at hstep
    split at hstep
    · rename_i event finished hp
      split at hstep
      · rename_i hguard
        cases hstep
        exact h.succeed event finished resp hguard.2 now
      · cases hstep
    · cases hstep
  | fail error now =>
    dsimp only at hstep
    split at hstep
    · rename_i event finished hp
      split at hstep
      · rename_i hguard
        cases hstep
        unfold PhaseOk at hphase
        rw [hp] at hphase
        exact h.fail hphase error hguard
      · cases hstep
    · cases hstep
  | announceNow completion now =>
    dsimp only at hstep
    split at hstep
    · rename_i hguard
      cases hstep
      obtain ⟨hstarted, hcompleted, hmin⟩ := s.entry.announceNow_keeps completion now
      refine h.retime hstarted hcompleted hmin ?_ hguard.1
      rcases h.order with hle | howed
      · rw [hmin]
        exact (TrackerUrlState.announceNow_order completion now hle).imp_right fun hc => .inr ⟨hguard.2 hc.1, hc.2⟩
      · exact .inr howed
    · cases hstep
  | retryFailedNow now =>
    dsimp only at hstep
    split at hstep
    · rename_i hguard
      cases hstep
      obtain ⟨hstarted, hcompleted, hmin, horder⟩ := s.entry.retryFailedNow_keeps now
      exact h.retime hstarted hcompleted hmin (h.order.imp_left fun hle => hmin ▸ horder hle) hguard
    · cases hstep
  | stop stopped now =>
    dsimp only at hstep
    split at hstep
    · cases hstep
      exact h.stop stopped now
    · cases hstep

/-! ### Runs -/

/-- At the start nothing was announced. -/
theorem Begins.held (h : s.Begins) : s.Held := by
  obtain ⟨url, now, hentry, hphase, hgiven, hsent⟩ := h
  refine ⟨.inl ?_, ?_, ?_, ?_⟩
  · rw [hentry]
    exact le_rfl
  · rw [hgiven]
    exact Nat.zero_le _
  · unfold PhaseOk
    rw [hphase]
    trivial
  · rw [hsent]
    exact fun a ha => absurd ha List.not_mem_nil

/-- Where the swarm poller looks at the URL with the flag as it is, no announce without an event is sent before the tracker allows it: not
before the minimum interval of its last answer has passed, nor the time it asked to wait. -/
theorem announces_wait (s : AnnounceRun) (h : Reach Begins (fun s s' => ∃ a, Current s a ∧ s.step a = some s') s) :
    ∀ a ∈ s.sent, a.event = .none → a.minNextAt ≤ a.time ∧ a.given ≤ a.time := by
  have hheld : s.Held := Reach.invariant (fun _ hs => hs.held) (fun _ _ hs ⟨_, ha, hstep⟩ => hs.step ha hstep) h
  exact hheld.sent

/-- An answer that asks for an hour between announces. -/
def hourly : AnnounceResponse where
  interval := secs 1800
  minInterval := some (secs 3600)
  seeders := none
  leechers := none
  trackerId := none

def freshRun : AnnounceRun where
  entry := .fresh "http://tracker/announce" 0
  finished := false
  phase := .idle
  clock := 0
  given := 0
  sent := []

theorem freshRun_begins : freshRun.Begins := ⟨_, _, rfl, rfl, rfl, rfl⟩

/-- The second announce comes an hour after the answer to the first. -/
theorem announces_wait_hourly : ∃ s, runActions step freshRun
      [.readFlag, .check 0, .succeed hourly false (secs 1), .readFlag, .check (secs 3601)] = some s ∧
    ∀ a ∈ s.sent, a.event = .none → a.minNextAt ≤ a.time ∧ a.given ≤ a.time := by
  have hrun : ∃ s, runActions (fun s a => if Current s a then step s a else none) freshRun
      [.readFlag, .check 0, .succeed hourly false (secs 1), .readFlag, .check (secs 3601)] = some s ∧ runActions step freshRun
      [.readFlag, .check 0, .succeed hourly false (secs 1), .readFlag, .check (secs 3601)] = some s := ⟨_, rfl, rfl⟩
  obtain ⟨s, hs, hsame⟩ := hrun
  exact ⟨s, hsame, announces_wait s (.runGuarded hs (.init freshRun_begins))⟩

/-- The flag rises after the swarm poller has read it, and the torrent announces its completion before the poller looks at the URL. -/
def overtaken : List TrackerAction :=
  [.readFlag, .check 0, .succeed hourly false (secs 1), .readFlag, .finish, .announceNow true (secs 100), .check (secs 100)]

/-- An announce without an event is sent 99 seconds after the answer that asks for an hour. -/
theorem announced_too_early : ¬ ∀ s, Reach Begins (fun s s' => ∃ a, s.step a = some s') s →
    ∀ a ∈ s.sent, a.event = .none → a.minNextAt ≤ a.time ∧ a.given ≤ a.time := by
  intro hall
  have hrun : ∃ s, runActions step freshRun overtaken = some s ∧ ∃ a ∈ s.sent, a.event = .none ∧ a.time < a.minNextAt :=
    ⟨_, rfl, _, List.mem_cons_self, by decide +kernel, by decide +kernel⟩
  obtain ⟨s, hs, a, ha, hevent, hearly⟩ := hrun
  have := (hall s (.runActions hs (.init freshRun_begins)) a ha hevent).1
  omega

end AnnounceRun

/-!
## Availability over whole runs

A torrent starts with no connection and a fresh piece tracker, and then connections come and go, peers tell which pieces they have
and the tracker is used, in any order (`HoldersEvent`).
-/

/-- The states reached by events in any order. -/
def HoldersRun (l : Lengths) : Holders l → Prop :=
  Reach (fun s => ∃ salt, s = Holders.start ((PieceTracker.new l).withOrderSalt salt))
    (fun s s' => ∃ e : HoldersEvent l, s' = e.apply s)

/-- The counts are those of the peers after every run. -/
theorem HoldersRun.counted {l : Lengths} {s : Holders l} (h : HoldersRun l s) : s.Counted := by
  refine Reach.invariant ?_ ?_ h
  · rintro s ⟨salt, rfl⟩
    exact Holders.Counted.start _ (congrFun (PieceTracker.foldl_markNeeded_availability (List.finRange l.totalPieces) _))
  · rintro s s' hs ⟨e, rfl⟩
    exact hs.apply e

/-- In every state reached: the availability of a piece is the number of connected peers whose bitfield has it, and no count was
ever lowered at zero or raised at its maximum. -/
theorem availability_exact (l : Lengths) (s : Holders l) (h : HoldersRun l s) :
    (∀ i, s.pieceTracker.availability i = s.holders i) ∧ s.clipped = false :=
  ⟨fun i => by rw [Holders.holders_eq]; exact h.counted.exact i, h.counted.unclipped⟩

/-- Three pieces of one byte. -/
def threeBytes : Lengths where
  totalLength := 3
  pieceLength := 1
  lastPieceIndex := 2
  lastPieceLength := 1
  last_index_lt := (by decide : 3 < 2 ^ 32)

/-- Two peers, one of which says twice that it has the first piece and then that it has all; the other sends spare bits and goes. -/
def haveTwice : List (HoldersEvent threeBytes) :=
  [.dial, .handshook 1 true false, .adoptInboundPeer false true, .receive 1 (.have' 0), .receive 1 (.have' 0),
    .receive 2 (.bitfield [0xff, 0xff]), .receive 1 .haveAll, .receive 1 .haveNone, .disconnected 2]

/-- The run of `haveTwice`. -/
def haveTwiceEnd : Holders threeBytes :=
  haveTwice.foldl (fun s e => e.apply s) (Holders.start ((PieceTracker.new threeBytes).withOrderSalt 0))

/-- A peer that says twice that it has a piece is counted once. -/
theorem availability_exact_haveTwice :
    ((∀ i, haveTwiceEnd.pieceTracker.availability i = haveTwiceEnd.holders i) ∧ haveTwiceEnd.clipped = false) ∧
      ∀ i, haveTwiceEnd.holders i = 1 :=
  ⟨availability_exact threeBytes haveTwiceEnd (Reach.foldl (.init ⟨0, rfl⟩) fun _ e _ => ⟨e, rfl⟩), by decide +kernel⟩

end Risuko
