import Risuko.Engine.Sections

/-!
# What a section does to an entry

A section edits entries in place, or adds one, or drops and rearranges them (`Section.apply_cases`). No edit changes a gid, and only two of them turn
a Removed task into something else (`Section.revives`).
-/

namespace Risuko

namespace Engine

variable {R : OptionReader} {tasks tasks' : List DownloadTask} {task task' : DownloadTask}

theorem forall₂_editFirst {p : DownloadTask → Bool} {edit : DownloadTask → Option DownloadTask} {rel : DownloadTask → DownloadTask → Prop}
    (hrefl : ∀ t, rel t t) (h : editFirst p edit tasks = some tasks') (he : ∀ t t', tasks.find? p = some t → edit t = some t' → rel t t') :
    List.Forall₂ rel tasks tasks' := by
  induction tasks generalizing tasks' with
  | nil => cases h
  | cons first rest ih =>
    unfold editFirst at h
    by_cases hp : p first
    · rw [if_pos hp] at h
      obtain ⟨edited, hedit, hlist⟩ := Option.map_eq_some_iff.mp h
      subst hlist
      exact .cons (he first edited (List.find?_cons_of_pos hp) hedit) (List.forall₂_same.mpr fun t _ => hrefl t)
    · rw [if_neg hp] at h
      obtain ⟨edited, hedit, hlist⟩ := Option.map_eq_some_iff.mp h
      subst hlist
      refine .cons (hrefl first) (ih hedit ?_)
      intro t t' hfind
      exact he t t' (by rw [List.find?_cons_of_neg hp, hfind])

theorem forall₂_map {edit : DownloadTask → DownloadTask} {rel : DownloadTask → DownloadTask → Prop} (he : ∀ t, rel t (edit t)) :
    List.Forall₂ rel tasks (tasks.map edit) :=
  List.forall₂_map_right_iff.mpr (List.forall₂_same.mpr fun t _ => he t)

theorem exists_of_forall₂ {rel : DownloadTask → DownloadTask → Prop} (h : List.Forall₂ rel tasks tasks') (ht : task' ∈ tasks') :
    ∃ task ∈ tasks, rel task task' := by
  induction h with
  | nil => cases ht
  | cons hrel _ ih =>
    rcases List.mem_cons.mp ht with rfl | hrest
    · exact ⟨_, List.mem_cons_self, hrel⟩
    · obtain ⟨t, hmem, ht⟩ := ih hrest
      exact ⟨t, List.mem_cons_of_mem _ hmem, ht⟩

/-! ## Edits keep the gid, and Removed tasks -/

/-- An edit that leaves a Removed task Removed. -/
structure Kept (task task' : DownloadTask) : Prop where
  gid : task'.gid = task.gid
  removed : task.status = .removed → task'.status = .removed

theorem Kept.refl (task : DownloadTask) : Kept task task := ⟨rfl, id⟩

theorem Kept.of_ne (hgid : task'.gid = task.gid) (h : task.status ≠ .removed) : Kept task task' := ⟨hgid, fun hr => absurd hr h⟩

theorem kept_preempt (h : preempt task = some task') : Kept task task' := by
  unfold preempt at h
  split at h
  · rename_i hactive
    cases h
    exact .of_ne rfl (by rw [hactive]; nofun)
  · cases h

theorem kept_start (h : start task = some task') : Kept task task' := by
  unfold start at h
  split at h
  · rename_i hwaiting
    cases h
    exact .of_ne rfl (by rw [hwaiting.1]; nofun)
  · cases h

theorem kept_pause (h : pause task = some task') : Kept task task' := by
  unfold pause at h
  split at h
  · rename_i hrunning
    cases h
    exact .of_ne rfl (by rcases hrunning with hs | hs <;> rw [hs] <;> nofun)
  · cases h

theorem kept_unpause (h : resumable task = true) : Kept task (unpause task) := by
  refine .of_ne rfl ?_
  intro hr
  simp [resumable, hr] at h

theorem kept_checkScheduled (now : ℕ) : Kept task (checkScheduled now task) := by
  unfold checkScheduled
  split
  · exact .refl task
  rename_i hscheduled
  have hne : task.status ≠ .removed := by
    intro hr
    simp [hr] at hscheduled
  split
  · exact .refl task
  split
  · exact .refl task
  split
  · exact .of_ne rfl hne
  · exact .of_ne rfl hne

theorem kept_setTaskSchedule {startAt : ℕ} (h : setTaskSchedule startAt task = some task') : Kept task task' := by
  unfold setTaskSchedule at h
  split at h
  · cases h
  · rename_i hopen
    cases h
    refine .of_ne rfl ?_
    intro hr
    simp [hr, TaskStatus.isStopped] at hopen

theorem kept_startTaskNow (h : startTaskNow task = some task') : Kept task task' := by
  unfold startTaskNow at h
  split at h
  · rename_i hscheduled
    cases h
    exact .of_ne rfl (by rw [hscheduled]; nofun)
  · cases h

theorem kept_remove : Kept task (remove task) := ⟨rfl, fun _ => rfl⟩

theorem kept_finishTask {result : DownloadResult} (h : finishTask result task = some task') : Kept task task' := by
  unfold finishTask at h
  split at h
  · cases h
  · rename_i hactive
    have hne : task.status ≠ .removed := by
      intro hr
      simp [hr] at hactive
    cases result with
    | ok name files =>
      cases h
      exact .of_ne rfl hne
    | cancelled =>
      cases h
      exact .of_ne rfl hne
    | error =>
      cases h
      exact .of_ne rfl hne

theorem kept_metalinkFinish {done : Bool} (h : metalinkFinish done task = some task') : Kept task task' := by
  unfold metalinkFinish at h
  split at h
  · rename_i hactive
    cases h
    exact .of_ne rfl (by rw [hactive]; nofun)
  · cases h

theorem kept_failTorrent (h : failTorrent task = some task') : Kept task task' := by
  unfold failTorrent at h
  split at h
  · rename_i hactive
    cases h
    exact .of_ne rfl (by rw [hactive]; nofun)
  · cases h

theorem kept_torrentProgress (stats : TorrentStats) : Kept task (torrentProgress stats task) := by
  unfold torrentProgress
  split
  · exact .refl task
  · rename_i hactive
    refine .of_ne ?_ ?_
    · dsimp only
      split <;> split <;> split <;> (try split) <;> rfl
    · intro hr
      simp [hr] at hactive

theorem kept_completeDropped (gids : List Gid) : Kept task (completeDropped gids task) := by
  unfold completeDropped
  split
  · rename_i hactive
    exact .of_ne rfl (by rw [hactive.2]; nofun)
  · exact .refl task

theorem kept_adoptName (name : Gid → Option Text) : Kept task (adoptName name task) := by
  unfold adoptName
  split
  · exact ⟨rfl, id⟩
  · exact .refl task

theorem kept_pauseAny : Kept task (pauseAny task) := by
  unfold pauseAny
  cases hpause : pause task with
  | none => exact .refl task
  | some paused => exact kept_pause hpause

theorem kept_unpauseAny (torrentGids : List Gid) : Kept task (unpauseAny torrentGids task) := by
  unfold unpauseAny
  split
  · exact .refl task
  rename_i hpaused
  have hne : task.status ≠ .removed := by
    intro hr
    simp [hr] at hpaused
  split
  · exact .of_ne rfl hne
  split
  · exact .of_ne rfl hne
  · exact .refl task

theorem kept_reloadPause : Kept task (reloadPause task) := by
  unfold reloadPause
  split
  · rename_i hactive
    exact .of_ne rfl (by rw [hactive.1]; nofun)
  · exact .refl task

theorem kept_reloadResume (h : reloadResume task = some task') : Kept task task' := by
  unfold reloadResume at h
  split at h
  · rename_i hpaused
    cases h
    exact .of_ne rfl (by rw [hpaused]; nofun)
  · cases h

theorem kept_reloadFailed (gids : List Gid) : Kept task (reloadFailed gids task) := by
  unfold reloadFailed
  split
  · rename_i hrunning
    exact .of_ne rfl (by rcases hrunning.2 with hs | hs | hs <;> rw [hs] <;> nofun)
  · exact .refl task

/-! ## Patches -/

theorem gid_patchUris (uris : Option (List Text)) : (patchUris task uris).gid = task.gid := by
  unfold patchUris
  split
  · rfl
  · split <;> rfl

theorem gid_patchPath (dir out : Option Text) : (patchPath task dir out).2.gid = task.gid := by
  unfold patchPath
  dsimp only
  split <;> rfl

theorem gid_patchNamed (key : OptionKey) (value : Value) : (patchNamed R task key value).2.gid = task.gid := by
  unfold patchNamed
  split
  · dsimp only
    split <;> rfl
  · dsimp only
    split <;> rfl
  · rfl

theorem gid_patchOption (acc : Patching) (entry : OptionKey × Value) : (patchOption R acc entry).task.gid = acc.task.gid := by
  unfold patchOption
  dsimp only
  split
  · rfl
  · exact gid_patchNamed entry.1 entry.2

theorem gid_foldl_patchOption (acc : Patching) (options : List (OptionKey × Value)) :
    (options.foldl (patchOption R) acc).task.gid = acc.task.gid := by
  induction options generalizing acc with
  | nil => rfl
  | cons entry rest ih => rw [List.foldl_cons, ih, gid_patchOption]

theorem gid_patchTrackers (trackers : List Text) : (patchTrackers R task trackers).2.gid = task.gid := by
  unfold patchTrackers
  dsimp only
  split <;> rfl

theorem gid_applyTaskPatch (patch : TaskPatch) : (applyTaskPatch R task patch).1.gid = task.gid := by
  unfold applyTaskPatch
  dsimp only
  rw [gid_patchTrackers, gid_foldl_patchOption, gid_patchPath, gid_patchUris]

theorem kept_updateTask {patch : TaskPatch} {privateTorrent : Bool} {staged : Option DownloadTask}
    (h : updateTask R patch privateTorrent task = some (task', staged)) : Kept task task' := by
  unfold updateTask at h
  split at h
  · cases h
  rename_i hopen
  dsimp only at h
  split at h
  · rename_i hrestart
    cases h
    refine .of_ne rfl ?_
    intro hr
    simp [needsRestart, hr] at hrestart
  · cases h
    exact ⟨gid_applyTaskPatch patch, id⟩

/-! ## One section -/

/-- Whether a section writes the status of a Removed task: these do not ask for it. -/
def Section.revives (R : OptionReader) (tasks : List DownloadTask) : Section → Bool
  | retryWithCookies gid _ _ => (tasks.find? (·.gid == gid)).any fun t => t.status == .removed && t.kind == .http
  | changeOption gid opts => (tasks.find? (·.gid == gid)).any fun t => t.status == .removed && stopsSeeding R t opts
  | _ => false

theorem kept_retryWithCookies {cookie userAgent : Option Text} (h : retryWithCookies cookie userAgent task = some task')
    (hr : (task.status == .removed && task.kind == .http) = false) : Kept task task' := by
  unfold retryWithCookies at h
  split at h
  · rename_i hhttp
    cases h
    refine .of_ne rfl ?_
    intro hremoved
    simp [hremoved, hhttp] at hr
  · cases h

theorem gid_changeOptions (opts : List (OptionKey × Value)) : (changeOptions R task opts).gid = task.gid := by
  unfold changeOptions
  dsimp only
  split <;> rfl

theorem kept_changeOptions {opts : List (OptionKey × Value)} (hr : (task.status == .removed && stopsSeeding R task opts) = false) :
    Kept task (changeOptions R task opts) := by
  refine ⟨gid_changeOptions opts, ?_⟩
  intro hremoved
  have hseeds : stopsSeeding R task opts = false := by
    simpa [hremoved] using hr
  simpa [changeOptions, hseeds] using hremoved

theorem gid_enqueued (now : ℕ) : (enqueued R now task).gid = task.gid := by
  unfold enqueued
  split
  · rfl
  · split <;> rfl

/-- An edit of the entries, none of which changes its gid. -/
structure Section.Edited (R : OptionReader) (tasks : List DownloadTask) (a : Section) (task task' : DownloadTask) : Prop where
  gid : task'.gid = task.gid
  removed : a.revives R tasks = false → task.status = .removed → task'.status = .removed

theorem Section.Edited.of_kept {a : Section} (h : Kept task task') : a.Edited R tasks task task' := ⟨h.gid, fun _ => h.removed⟩

theorem subperm_moveTasks {gids : List Gid} {target : Gid} {after : Bool} (h : moveTasks gids target after tasks = some tasks') :
    tasks'.Subperm tasks := by
  unfold moveTasks at h
  dsimp only at h
  split at h
  · cases h
  · cases h
    refine List.Perm.subperm ?_
    set moved := tasks.filter fun t => gids.contains t.gid
    set remaining := tasks.filter fun t => !gids.contains t.gid
    have hsplit : ∀ i, (remaining.take i ++ moved ++ remaining.drop i).Perm tasks := by
      intro i
      have hmoved : (remaining.take i ++ moved ++ remaining.drop i).Perm (moved ++ (remaining.take i ++ remaining.drop i)) := by
        rw [List.append_assoc]
        exact (List.perm_append_comm_assoc _ _ _)
      rw [List.take_append_drop] at hmoved
      exact hmoved.trans (List.filter_append_perm _ tasks)
    exact hsplit _

theorem subperm_changePosition {gid : Gid} {pos : Int64} {how : PositionMode} (h : changePosition gid pos how tasks = some tasks') :
    tasks'.Subperm tasks := by
  unfold changePosition at h
  dsimp only at h
  split at h
  · cases h
  rename_i current _
  split at h
  · cases h
  split at h
  · cases h
  · rename_i i moved hmoved
    cases h
    obtain ⟨j, _, hget⟩ := Option.bind_eq_some_iff.mp hmoved
    obtain ⟨t, ht, hpair⟩ := Option.map_eq_some_iff.mp hget
    cases hpair
    obtain ⟨hlt, rfl⟩ := List.getElem?_eq_some_iff.mp ht
    have hback : (tasks[i] :: tasks.eraseIdx i).Perm tasks := List.getElem_cons_eraseIdx_perm hlt
    by_cases hle : ((waitingIndices (tasks.eraseIdx i))[targetWaitingPos current (waitingIndices tasks).length pos how]?.getD
        (tasks.eraseIdx i).length) ≤ (tasks.eraseIdx i).length
    · exact ((List.perm_insertIdx _ _ hle).trans hback).subperm
    · rw [List.insertIdx_of_length_lt (by omega)]
      exact (List.eraseIdx_sublist ..).subperm

/-- What a section makes of the list. -/
theorem Section.apply_cases {a : Section} (h : a.apply R tasks = some tasks') :
    (a.newGid = none ∧ List.Forall₂ (a.Edited R tasks) tasks tasks') ∨ (∃ task, a.newGid = some task.gid ∧ tasks' = tasks ++ [task]) ∨
      (a.newGid = none ∧ tasks'.Subperm tasks) := by
  have hfirst : ∀ {p edit}, a.newGid = none → editFirst p edit tasks = some tasks' →
      (∀ t t', tasks.find? p = some t → edit t = some t' → a.Edited R tasks t t') →
        a.newGid = none ∧ List.Forall₂ (a.Edited R tasks) tasks tasks' :=
    fun hnew hedit he => ⟨hnew, forall₂_editFirst (fun t => .of_kept (.refl t)) hedit he⟩
  cases a with
  | enqueue now task =>
    cases h
    exact .inr (.inl ⟨_, by rw [gid_enqueued]; rfl, rfl⟩)
  | addTorrent status task =>
    simp only [apply] at h
    split at h
    · cases h
      exact .inr (.inl ⟨{ task with status := status }, rfl, rfl⟩)
    · cases h
  | start gid => exact .inl (hfirst rfl h fun t t' _ he => .of_kept (kept_start he))
  | preempt gid => exact .inl (hfirst rfl h fun t t' _ he => .of_kept (kept_preempt he))
  | pause gid => exact .inl (hfirst rfl h fun t t' _ he => .of_kept (kept_pause he))
  | pauseAll =>
    cases h
    exact .inl ⟨rfl, forall₂_map fun t => .of_kept kept_pauseAny⟩
  | unpause gid =>
    refine .inl (hfirst rfl h ?_)
    intro t t' hfind he
    cases he
    have hresumable := List.find?_some hfind
    exact .of_kept (kept_unpause (Bool.and_eq_true_iff.mp hresumable).2)
  | unpauseAll torrentGids =>
    cases h
    exact .inl ⟨rfl, forall₂_map fun t => .of_kept (kept_unpauseAny torrentGids)⟩
  | checkScheduled now =>
    cases h
    exact .inl ⟨rfl, forall₂_map fun t => .of_kept (kept_checkScheduled now)⟩
  | setTaskSchedule gid startAt => exact .inl (hfirst rfl h fun t t' _ he => .of_kept (kept_setTaskSchedule he))
  | startTaskNow gid => exact .inl (hfirst rfl h fun t t' _ he => .of_kept (kept_startTaskNow he))
  | moveTasks gids target after => exact .inr (.inr ⟨rfl, subperm_moveTasks h⟩)
  | changePosition gid pos how => exact .inr (.inr ⟨rfl, subperm_changePosition h⟩)
  | retryWithCookies gid cookie userAgent =>
    refine .inl (hfirst rfl h ?_)
    intro t t' hfind he
    refine ⟨?_, fun hrevives => (kept_retryWithCookies he (by simpa [revives, hfind] using hrevives)).removed⟩
    unfold Engine.retryWithCookies at he
    split at he
    · cases he
      rfl
    · cases he
  | remove gid =>
    refine .inl (hfirst rfl h ?_)
    intro t t' _ he
    cases he
    exact .of_kept kept_remove
  | updateTask gid patch privateTorrent =>
    refine .inl (hfirst rfl h ?_)
    intro t t' _ he
    obtain ⟨pair, hpair, rfl⟩ := Option.map_eq_some_iff.mp he
    exact .of_kept (kept_updateTask hpair)
  | revertRestart gid =>
    refine .inl (hfirst rfl h ?_)
    intro t t' _ he
    split at he
    · rename_i hwaiting
      cases he
      exact .of_kept (.of_ne rfl (by rw [hwaiting]; nofun))
    · cases he
  | writeBack staged =>
    refine .inl (hfirst rfl h ?_)
    intro t t' hfind he
    cases he
    have hgid := List.find?_some hfind
    exact .of_kept ⟨(beq_iff_eq.mp hgid).symm, id⟩
  | changeOption gid opts =>
    refine .inl (hfirst rfl h ?_)
    intro t t' hfind he
    cases he
    exact ⟨gid_changeOptions opts, fun hrevives => (kept_changeOptions (by simpa [revives, hfind] using hrevives)).removed⟩
  | finishTask gid result => exact .inl (hfirst rfl h fun t t' _ he => .of_kept (kept_finishTask he))
  | metalinkFinish gid done => exact .inl (hfirst rfl h fun t t' _ he => .of_kept (kept_metalinkFinish he))
  | failTorrent gid => exact .inl (hfirst rfl h fun t t' _ he => .of_kept (kept_failTorrent he))
  | attachMagnet gid selection | replayTrackers gid announced =>
    refine .inl (hfirst rfl h ?_)
    intro t t' _ he
    cases he
    exact .of_kept ⟨rfl, id⟩
  | adoptNames name =>
    cases h
    exact .inl ⟨rfl, forall₂_map fun t => .of_kept (kept_adoptName name)⟩
  | updateProgress stats =>
    cases h
    refine .inl ⟨rfl, forall₂_map fun t => .of_kept ?_⟩
    cases stats t.gid with
    | none => exact .refl t
    | some found => exact kept_torrentProgress found
  | completeDropped gids =>
    cases h
    exact .inl ⟨rfl, forall₂_map fun t => .of_kept (kept_completeDropped gids)⟩
  | reloadPause =>
    cases h
    exact .inl ⟨rfl, forall₂_map fun t => .of_kept kept_reloadPause⟩
  | reloadResume gid => exact .inl (hfirst rfl h fun t t' _ he => .of_kept (kept_reloadResume he))
  | reloadFailed gids =>
    cases h
    exact .inl ⟨rfl, forall₂_map fun t => .of_kept (kept_reloadFailed gids)⟩
  | evict gids | purgeDownloadResult | removeDownloadResult gid =>
    cases h
    exact .inr (.inr ⟨rfl, List.filter_sublist.subperm⟩)

theorem found_gid {gid : Gid} {task : DownloadTask} (h : tasks.find? (·.gid == gid) = some task) : task ∈ tasks ∧ task.gid = gid := by
  have hgid := List.find?_some h
  exact ⟨List.mem_of_find?_eq_some h, beq_iff_eq.mp hgid⟩

/-! ## Gids -/

namespace TaskList

variable {s s' : TaskList}

/-- Every entry of the list has a gid of its own, which has been used. -/
structure Distinct (s : TaskList) : Prop where
  nodup : (s.tasks.map (·.gid)).Nodup
  used : ∀ task ∈ s.tasks, task.gid ∈ s.used

theorem distinct_start {tasks : List DownloadTask} (h : (tasks.map (·.gid)).Nodup) : Distinct (start tasks) :=
  ⟨h, fun _ ht => List.mem_map_of_mem ht⟩

/-- The section that a step takes, which adds no gid that has been used. -/
theorem step_cases {a : Section} (h : step R s a = some s') :
    (∀ gid, a.newGid = some gid → gid ∉ s.used) ∧ a.apply R s.tasks = some s'.tasks ∧ s'.used = a.newGid.toList ++ s.used := by
  unfold step at h
  split at h
  · cases h
  · rename_i hnew
    obtain ⟨tasks, happly, rfl⟩ := Option.map_eq_some_iff.mp h
    refine ⟨?_, happly, rfl⟩
    intro gid hgid hused
    simp [hgid, hused] at hnew

theorem gids_of_forall₂ {a : Section} {tasks tasks' base : List DownloadTask} (h : List.Forall₂ (a.Edited R base) tasks tasks') :
    tasks'.map (·.gid) = tasks.map (·.gid) := by
  induction h with
  | nil => rfl
  | cons hedit _ ih => rw [List.map_cons, List.map_cons, hedit.gid, ih]

/-- No step gives two tasks one gid. -/
theorem Distinct.step {a : Section} (h : Distinct s) (hs : step R s a = some s') : Distinct s' := by
  obtain ⟨hnew, happly, hused⟩ := step_cases hs
  rcases Section.apply_cases happly with ⟨hnone, hedits⟩ | ⟨task, hsome, hlist⟩ | ⟨hnone, hsub⟩
  · rw [hnone] at hused
    refine ⟨by rw [gids_of_forall₂ hedits]; exact h.nodup, ?_⟩
    intro task' ht'
    obtain ⟨task, ht, hedit⟩ := exists_of_forall₂ hedits ht'
    rw [hedit.gid, hused]
    exact h.used task ht
  · rw [hsome] at hused
    have hfresh := hnew _ hsome
    constructor
    · rw [hlist, List.map_append]
      refine List.Nodup.append h.nodup (List.nodup_singleton _) ?_
      intro gid hgid hlast
      obtain ⟨old, hold, rfl⟩ := List.mem_map.mp hgid
      rw [List.map_singleton, List.mem_singleton] at hlast
      rw [← hlast] at hfresh
      exact hfresh (h.used old hold)
    · intro task' ht'
      rw [hlist] at ht'
      rw [hused]
      rcases List.mem_append.mp ht' with hold | hlast
      · exact List.mem_append_right _ (h.used task' hold)
      · rw [List.mem_singleton.mp hlast]
        exact List.mem_append_left _ (List.mem_singleton_self _)
  · rw [hnone] at hused
    refine ⟨?_, ?_⟩
    · obtain ⟨kept, hperm, hsublist⟩ := hsub
      exact (hperm.map _).nodup_iff.mp ((hsublist.map (·.gid)).nodup h.nodup)
    intro task' ht'
    rw [hused]
    exact h.used task' (hsub.subset ht')

end TaskList

end Engine

end Risuko
