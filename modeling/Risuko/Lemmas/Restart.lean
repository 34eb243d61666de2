import Risuko.Lemmas.Sections

/-!
# Edits of a task that waits for its worker

A task whose worker restarts is neither Active nor Scheduled, and no torrent (`Idle`). What writes such a task and is not one of the calls that edit
it writes the status alone (`Section.quiet`). So the staged copy stays what the patch makes of the task.
-/

namespace Risuko

namespace Engine

variable {R : OptionReader} {tasks tasks' : List DownloadTask} {task task' : DownloadTask}

/-- The task with another status. -/
def DownloadTask.withStatus (task : DownloadTask) (status : TaskStatus) : DownloadTask := { task with status := status }

theorem withStatus_withStatus (status status' : TaskStatus) : (task.withStatus status).withStatus status' = task.withStatus status' := rfl

/-! ## Patches and the status -/

theorem patchUris_status (status : TaskStatus) (uris : Option (List Text)) :
    patchUris (task.withStatus status) uris = (patchUris task uris).withStatus status := by
  unfold patchUris DownloadTask.withStatus
  cases uris with
  | none => rfl
  | some uris =>
    dsimp only
    split <;> rfl

theorem patchPath_status (status : TaskStatus) (dir out : Option Text) :
    patchPath (task.withStatus status) dir out = ((patchPath task dir out).1, (patchPath task dir out).2.withStatus status) := by
  unfold patchPath DownloadTask.withStatus
  dsimp only
  split <;> rfl

theorem patchNamed_status (status : TaskStatus) (key : OptionKey) (value : Value) :
    patchNamed R (task.withStatus status) key value = ((patchNamed R task key value).1, (patchNamed R task key value).2.withStatus status) := by
  unfold patchNamed DownloadTask.withStatus
  split
  · dsimp only
    split <;> rfl
  · dsimp only
    split <;> rfl
  · rfl

/-- What the third part carries along, with another status. -/
def Patching.withStatus (acc : Patching) (status : TaskStatus) : Patching := { acc with task := acc.task.withStatus status }

theorem patchOption_status (status : TaskStatus) (acc : Patching) (entry : OptionKey × Value) :
    patchOption R (acc.withStatus status) entry = (patchOption R acc entry).withStatus status := by
  unfold patchOption Patching.withStatus
  dsimp only
  rw [patchNamed_status]
  split <;> rfl

theorem foldl_patchOption_status (status : TaskStatus) (acc : Patching) (options : List (OptionKey × Value)) :
    options.foldl (patchOption R) (acc.withStatus status) = (options.foldl (patchOption R) acc).withStatus status := by
  induction options generalizing acc with
  | nil => rfl
  | cons entry rest ih => rw [List.foldl_cons, patchOption_status, ih, List.foldl_cons]

theorem patchTrackers_status (status : TaskStatus) (trackers : List Text) :
    patchTrackers R (task.withStatus status) trackers = ((patchTrackers R task trackers).1, (patchTrackers R task trackers).2.withStatus status) := by
  unfold patchTrackers newTrackers DownloadTask.withStatus
  dsimp only
  split <;> rfl

/-- A patch neither reads nor writes the status. -/
theorem applyTaskPatch_status (task : DownloadTask) (status : TaskStatus) (patch : TaskPatch) :
    (applyTaskPatch R (task.withStatus status) patch).1 = (applyTaskPatch R task patch).1.withStatus status := by
  have hfold := foldl_patchOption_status (R := R) status
    ⟨(patchPath (patchUris task patch.uris) patch.dir patch.out).1, false, (patchPath (patchUris task patch.uris) patch.dir patch.out).2⟩ patch.options
  unfold applyTaskPatch
  dsimp only
  rw [patchUris_status, patchPath_status]
  dsimp only [Patching.withStatus] at hfold ⊢
  rw [hfold, patchTrackers_status]

theorem startAt_patchUris (uris : Option (List Text)) : (patchUris task uris).startAt = task.startAt := by
  unfold patchUris
  split
  · rfl
  · split <;> rfl

theorem startAt_patchPath (dir out : Option Text) : (patchPath task dir out).2.startAt = task.startAt := by
  unfold patchPath
  dsimp only
  split <;> rfl

theorem startAt_patchNamed (key : OptionKey) (value : Value) : (patchNamed R task key value).2.startAt = task.startAt := by
  unfold patchNamed
  split
  · dsimp only
    split <;> rfl
  · dsimp only
    split <;> rfl
  · rfl

theorem startAt_foldl_patchOption (acc : Patching) (options : List (OptionKey × Value)) :
    (options.foldl (patchOption R) acc).task.startAt = acc.task.startAt := by
  induction options generalizing acc with
  | nil => rfl
  | cons entry rest ih =>
    rw [List.foldl_cons, ih]
    unfold patchOption
    dsimp only
    split
    · rfl
    · exact startAt_patchNamed entry.1 entry.2

/-- A patch does not touch the schedule. -/
theorem startAt_applyTaskPatch (patch : TaskPatch) : (applyTaskPatch R task patch).1.startAt = task.startAt := by
  have htrackers : ∀ t : DownloadTask, (patchTrackers R t patch.trackers).2.startAt = t.startAt := by
    intro t
    unfold patchTrackers
    dsimp only
    split <;> rfl
  unfold applyTaskPatch
  dsimp only
  rw [htrackers, startAt_foldl_patchOption, startAt_patchPath, startAt_patchUris]

/-! ## Quiet edits -/

/-- A task that waits for its worker to exit, or has been paused or removed meanwhile. -/
structure Idle (task : DownloadTask) : Prop where
  active : task.status ≠ .active
  scheduled : task.status ≠ .scheduled
  kind : task.kind ≠ .torrent

/-- A Scheduled task has a time to start at. -/
def Timed (task : DownloadTask) : Prop := task.status = .scheduled → task.startAt.isSome = true

/-- An edit that leaves a time to every Scheduled task, and writes the status of an idle one alone. -/
structure Quiet (task task' : DownloadTask) : Prop where
  timed : Timed task → Timed task'
  idle : Idle task → Idle task' ∧ ∃ status, task' = task.withStatus status

theorem Quiet.refl (task : DownloadTask) : Quiet task task := ⟨id, fun h => ⟨h, task.status, rfl⟩⟩

/-- The status becomes one that is neither Active nor Scheduled. -/
theorem Quiet.of_status {status : TaskStatus} (ha : status ≠ .active) (hs : status ≠ .scheduled) : Quiet task { task with status := status } :=
  ⟨fun _ h => absurd h hs, fun h => ⟨⟨ha, hs, h.kind⟩, status, rfl⟩⟩

/-- The edit of a task that is not idle. -/
theorem Quiet.of_not_idle (h : ¬ Idle task) (ht : Timed task → Timed task') : Quiet task task' := ⟨ht, fun hidle => absurd hidle h⟩

theorem not_idle_of_active (h : task.status = .active) : ¬ Idle task := fun hidle => hidle.active h

theorem not_idle_of_torrent (h : task.kind = .torrent) : ¬ Idle task := fun hidle => hidle.kind h

theorem timed_of_ne (h : task.status ≠ .scheduled) : Timed task := fun hs => absurd hs h

theorem quiet_preempt (h : preempt task = some task') : Quiet task task' := by
  unfold preempt at h
  split at h
  · cases h
    exact .of_status nofun nofun
  · cases h

theorem quiet_pause (h : pause task = some task') : Quiet task task' := by
  unfold pause at h
  split at h
  · cases h
    exact .of_status nofun nofun
  · cases h

theorem quiet_unpause : Quiet task (unpause task) := by
  unfold unpause
  by_cases hk : task.kind = .torrent
  · rw [if_pos hk]
    exact .of_not_idle (not_idle_of_torrent hk) fun _ => timed_of_ne nofun
  · rw [if_neg hk]
    exact .of_status nofun nofun

theorem quiet_checkScheduled (now : ℕ) : Quiet task (checkScheduled now task) := by
  unfold checkScheduled
  split
  · exact .refl task
  rename_i hscheduled
  have hidle : ¬ Idle task := by
    intro hidle
    simp [hidle.scheduled] at hscheduled
  split
  · exact .refl task
  split
  · exact .refl task
  split
  · exact .of_not_idle hidle fun _ => timed_of_ne nofun
  · exact .of_not_idle hidle id

theorem quiet_startTaskNow (h : startTaskNow task = some task') : Quiet task task' := by
  unfold startTaskNow at h
  split at h
  · rename_i hscheduled
    cases h
    exact .of_not_idle (fun hidle => hidle.scheduled hscheduled) fun _ => timed_of_ne nofun
  · cases h

theorem quiet_finishTask {result : DownloadResult} (h : finishTask result task = some task') : Quiet task task' := by
  unfold finishTask at h
  split at h
  · cases h
  · rename_i hactive
    have hidle : ¬ Idle task := not_idle_of_active (not_not.mp hactive)
    cases result with
    | ok name files | cancelled | error =>
      cases h
      exact .of_not_idle hidle fun _ => timed_of_ne nofun

theorem quiet_metalinkFinish {done : Bool} (h : metalinkFinish done task = some task') : Quiet task task' := by
  unfold metalinkFinish at h
  split at h
  · cases h
    cases done
    · exact .of_status nofun nofun
    · exact .of_status nofun nofun
  · cases h

theorem quiet_failTorrent (h : failTorrent task = some task') : Quiet task task' := by
  unfold failTorrent at h
  split at h
  · cases h
    exact .of_status nofun nofun
  · cases h

theorem timed_torrentProgress (stats : TorrentStats) (h : Timed task) : Timed (torrentProgress stats task) := by
  unfold torrentProgress
  split
  · exact h
  · rename_i hactive
    have hne : task.status ≠ .scheduled := by
      intro hs
      simp [hs] at hactive
    dsimp only
    refine timed_of_ne ?_
    split <;> split <;> split <;> (try split) <;> first | exact hne | nofun

theorem quiet_torrentProgress (stats : TorrentStats) : Quiet task (torrentProgress stats task) := by
  by_cases hk : task.kind = .torrent
  · exact .of_not_idle (not_idle_of_torrent hk) (timed_torrentProgress stats)
  · unfold torrentProgress
    rw [if_pos (.inl hk)]
    exact .refl task

theorem quiet_completeDropped (gids : List Gid) : Quiet task (completeDropped gids task) := by
  unfold completeDropped
  split
  · rename_i hactive
    exact .of_not_idle (not_idle_of_active hactive.2) fun _ => timed_of_ne nofun
  · exact .refl task

theorem quiet_adoptName (name : Gid → Option Text) : Quiet task (adoptName name task) := by
  unfold adoptName
  split
  · rename_i hactive
    exact .of_not_idle (not_idle_of_active hactive) id
  · exact .refl task

theorem quiet_pauseAny : Quiet task (pauseAny task) := by
  unfold pauseAny
  cases hpause : pause task with
  | none => exact .refl task
  | some paused => exact quiet_pause hpause

theorem quiet_unpauseAny (torrentGids : List Gid) : Quiet task (unpauseAny torrentGids task) := by
  unfold unpauseAny
  split
  · exact .refl task
  split
  · exact .of_status nofun nofun
  rename_i hk
  split
  · exact .of_not_idle (not_idle_of_torrent (not_not.mp hk)) fun _ => timed_of_ne nofun
  · exact .refl task

theorem quiet_reloadPause : Quiet task (reloadPause task) := by
  unfold reloadPause
  split
  · exact .of_status nofun nofun
  · exact .refl task

theorem quiet_reloadResume (h : reloadResume task = some task') : Quiet task task' := by
  unfold reloadResume at h
  split at h
  · cases h
    by_cases hk : task.kind = .torrent
    · rw [if_pos hk]
      exact .of_not_idle (not_idle_of_torrent hk) fun _ => timed_of_ne nofun
    · rw [if_neg hk]
      exact .of_status nofun nofun
  · cases h

theorem quiet_reloadFailed (gids : List Gid) : Quiet task (reloadFailed gids task) := by
  unfold reloadFailed
  split
  · exact .of_status nofun nofun
  · exact .refl task

/-! ## Sections beside a restart -/

/-- The task that a call edits. -/
def Section.edits : Section → Option Gid
  | setTaskSchedule gid _ | changeOption gid _ | retryWithCookies gid _ _ => some gid
  | _ => none

/-- What a section that is none of `update_task` does to an entry. -/
structure Section.Beside (a : Section) (task task' : DownloadTask) : Prop where
  gid : task'.gid = task.gid
  timed : Timed task → Timed task'
  idle : a.edits ≠ some task.gid → (∀ gid, a = .start gid → gid ≠ task.gid) → Idle task → Idle task' ∧ ∃ status, task' = task.withStatus status

theorem Section.Beside.of_quiet {a : Section} (hk : Kept task task') (h : Quiet task task') : a.Beside task task' :=
  ⟨hk.gid, h.timed, fun _ _ => h.idle⟩

/-- A section that edits the task, or starts it. -/
theorem Section.Beside.of_edit {a : Section} (hg : task'.gid = task.gid) (ht : Timed task → Timed task')
    (h : a.edits = some task.gid ∨ a = .start task.gid) : a.Beside task task' := by
  refine ⟨hg, ht, ?_⟩
  intro hedits hstart
  rcases h with hsame | hsame
  · exact absurd hsame hedits
  · exact absurd rfl (hstart _ hsame)

theorem timed_changeOptions {opts : List (OptionKey × Value)} (h : Timed task) : Timed (changeOptions R task opts) := by
  unfold changeOptions
  dsimp only
  split
  · exact timed_of_ne nofun
  · exact h

/-- What a section other than those of `update_task` makes of the list. -/
theorem Section.beside_cases {a : Section} (h : a.apply R tasks = some tasks') (hu : a.isUpdate = false) :
    List.Forall₂ a.Beside tasks tasks' ∨ (∃ task, a.newGid = some task.gid ∧ Timed task ∧ tasks' = tasks ++ [task]) ∨ tasks'.Subperm tasks := by
  have hfirst : ∀ {p edit}, editFirst p edit tasks = some tasks' → (∀ t t', tasks.find? p = some t → edit t = some t' → a.Beside t t') →
      List.Forall₂ a.Beside tasks tasks' :=
    fun hedit he => forall₂_editFirst (fun t => .of_quiet (.refl t) (.refl t)) hedit he
  have hgidOf : ∀ {gid : Gid} {t : DownloadTask}, tasks.find? (·.gid == gid) = some t → t.gid = gid := by
    intro gid t hfind
    have hfound := List.find?_some hfind
    exact beq_iff_eq.mp hfound
  cases a with
  | updateTask | writeBack | revertRestart => cases hu
  | enqueue now task =>
    cases h
    refine .inr (.inl ⟨_, by rw [gid_enqueued]; rfl, ?_, rfl⟩)
    unfold enqueued
    split
    · exact fun _ => rfl
    split
    · exact timed_of_ne (by simp)
    · exact timed_of_ne (by simp)
  | addTorrent status task =>
    simp only [apply] at h
    split at h
    · rename_i hstatus
      cases h
      refine .inr (.inl ⟨{ task with status := status }, rfl, timed_of_ne ?_, rfl⟩)
      rcases hstatus with rfl | rfl | rfl <;> simp
    · cases h
  | start gid =>
    refine .inl (hfirst h ?_)
    intro t t' hfind he
    have hgid := hgidOf hfind
    subst hgid
    unfold Engine.start at he
    split at he
    · cases he
      exact .of_edit rfl (fun _ => timed_of_ne (by simp)) (.inr rfl)
    · cases he
  | preempt gid => exact .inl (hfirst h fun t t' _ he => .of_quiet (kept_preempt he) (quiet_preempt he))
  | pause gid => exact .inl (hfirst h fun t t' _ he => .of_quiet (kept_pause he) (quiet_pause he))
  | pauseAll =>
    cases h
    exact .inl (forall₂_map fun t => .of_quiet kept_pauseAny quiet_pauseAny)
  | unpause gid =>
    refine .inl (hfirst h ?_)
    intro t t' hfind he
    cases he
    have hfound := List.find?_some hfind
    exact .of_quiet (kept_unpause (Bool.and_eq_true_iff.mp hfound).2) quiet_unpause
  | unpauseAll torrentGids =>
    cases h
    exact .inl (forall₂_map fun t => .of_quiet (kept_unpauseAny torrentGids) (quiet_unpauseAny torrentGids))
  | checkScheduled now =>
    cases h
    exact .inl (forall₂_map fun t => .of_quiet (kept_checkScheduled now) (quiet_checkScheduled now))
  | setTaskSchedule gid startAt =>
    refine .inl (hfirst h ?_)
    intro t t' hfind he
    have hgid := hgidOf hfind
    subst hgid
    refine .of_edit (kept_setTaskSchedule he).gid ?_ (.inl rfl)
    unfold Engine.setTaskSchedule at he
    split at he
    · cases he
    · cases he
      exact fun _ _ => rfl
  | startTaskNow gid => exact .inl (hfirst h fun t t' _ he => .of_quiet (kept_startTaskNow he) (quiet_startTaskNow he))
  | moveTasks gids target after => exact .inr (.inr (subperm_moveTasks h))
  | changePosition gid pos how => exact .inr (.inr (subperm_changePosition h))
  | retryWithCookies gid cookie userAgent =>
    refine .inl (hfirst h ?_)
    intro t t' hfind he
    have hgid := hgidOf hfind
    subst hgid
    unfold Engine.retryWithCookies at he
    split at he
    · cases he
      exact .of_edit rfl (fun _ => timed_of_ne (by simp)) (.inl rfl)
    · cases he
  | remove gid =>
    refine .inl (hfirst h ?_)
    intro t t' _ he
    cases he
    exact .of_quiet kept_remove (.of_status (by simp) (by simp))
  | changeOption gid opts =>
    refine .inl (hfirst h ?_)
    intro t t' hfind he
    have hgid := hgidOf hfind
    subst hgid
    cases he
    exact .of_edit (gid_changeOptions opts) timed_changeOptions (.inl rfl)
  | finishTask gid result => exact .inl (hfirst h fun t t' _ he => .of_quiet (kept_finishTask he) (quiet_finishTask he))
  | metalinkFinish gid done => exact .inl (hfirst h fun t t' _ he => .of_quiet (kept_metalinkFinish he) (quiet_metalinkFinish he))
  | failTorrent gid => exact .inl (hfirst h fun t t' _ he => .of_quiet (kept_failTorrent he) (quiet_failTorrent he))
  | attachMagnet gid selection =>
    refine .inl (hfirst h ?_)
    intro t t' hfind he
    have hkind : t.kind = .torrent := by
      have hfound := List.find?_some hfind
      simp only [Bool.and_eq_true, beq_iff_eq] at hfound
      exact hfound.1.2
    cases he
    exact .of_quiet ⟨rfl, id⟩ (.of_not_idle (not_idle_of_torrent hkind) id)
  | replayTrackers gid announced =>
    refine .inl (hfirst h ?_)
    intro t t' hfind he
    have hfound := List.find?_some hfind
    have hkind : t.kind = .torrent := beq_iff_eq.mp (Bool.and_eq_true_iff.mp hfound).2
    cases he
    exact .of_quiet ⟨rfl, id⟩ (.of_not_idle (not_idle_of_torrent hkind) id)
  | adoptNames name =>
    cases h
    exact .inl (forall₂_map fun t => .of_quiet (kept_adoptName name) (quiet_adoptName name))
  | updateProgress stats =>
    cases h
    refine .inl (forall₂_map fun t => ?_)
    cases stats t.gid with
    | none => exact .of_quiet (.refl t) (.refl t)
    | some found => exact .of_quiet (kept_torrentProgress found) (quiet_torrentProgress found)
  | completeDropped gids =>
    cases h
    exact .inl (forall₂_map fun t => .of_quiet (kept_completeDropped gids) (quiet_completeDropped gids))
  | reloadPause =>
    cases h
    exact .inl (forall₂_map fun t => .of_quiet kept_reloadPause quiet_reloadPause)
  | reloadResume gid => exact .inl (hfirst h fun t t' _ he => .of_quiet (kept_reloadResume he) (quiet_reloadResume he))
  | reloadFailed gids =>
    cases h
    exact .inl (forall₂_map fun t => .of_quiet (kept_reloadFailed gids) (quiet_reloadFailed gids))
  | evict gids | purgeDownloadResult | removeDownloadResult gid =>
    cases h
    exact .inr (.inr List.filter_sublist.subperm)

end Engine

end Risuko
