import Risuko.Engine.Task
import Risuko.Lib.Reach

/-!
# What happens under the lock of the task list

Every place of `manager.rs` that writes `tasks`, as a function of the list. `none` is an error of the call, or that nothing is written. What a call
has read before it took the lock is an argument. Behind them stand the calls that are made of several sections.
-/

namespace Risuko

namespace Engine

/-- Edit the first task that `find` comes to. -/
def editFirst (p : DownloadTask → Bool) (edit : DownloadTask → Option DownloadTask) : List DownloadTask → Option (List DownloadTask)
  | [] => none
  | task :: rest => if p task then (edit task).map (· :: rest) else (editFirst p edit rest).map (task :: ·)

def editTask (gid : Gid) (edit : DownloadTask → Option DownloadTask) (tasks : List DownloadTask) : Option (List DownloadTask) :=
  editFirst (·.gid == gid) edit tasks

/-- The tasks that `SessionManager::encode` takes. -/
def savedTasks (tasks : List DownloadTask) : List DownloadTask := tasks.filter (·.status != .removed)

/-! ## Edits of one task -/

/-- `preempt`. -/
def preempt (task : DownloadTask) : Option DownloadTask := if task.status = .active then some { task with status := .waiting } else none

/-- A start by `try_start_next_unlocked`. -/
def start (task : DownloadTask) : Option DownloadTask :=
  if task.status = .waiting ∧ task.hasData then some { task with status := .active } else none

def pause (task : DownloadTask) : Option DownloadTask :=
  if task.status = .active ∨ task.status = .waiting then some { task with status := .paused } else none

/-- `resumable` of `unpause`. -/
def resumable (task : DownloadTask) : Bool := task.status == .paused || task.status == .error

def unpause (task : DownloadTask) : DownloadTask := { task with status := if task.kind = .torrent then .active else .waiting }

/-- `GRACE_SECS`. -/
def graceSecs : ℕ := 300

/-- `check_scheduled_tasks`, of one task. -/
def checkScheduled (now : ℕ) (task : DownloadTask) : DownloadTask :=
  if task.status ≠ .scheduled ∨ task.scheduleMissed then task
  else
    match task.startAt with
    | none => task
    | some ts =>
      if now < ts then task
      else if now - ts ≤ graceSecs then { task with status := .waiting, startAt := none }
      else { task with scheduleMissed := true }

def setTaskSchedule (startAt : ℕ) (task : DownloadTask) : Option DownloadTask :=
  if task.kind = .torrent ∨ task.status.isStopped then none
  else some { task with status := .scheduled, startAt := some startAt, scheduleMissed := false }

def startTaskNow (task : DownloadTask) : Option DownloadTask :=
  if task.status = .scheduled then some { task with status := .waiting, startAt := none, scheduleMissed := false } else none

def retryWithCookies (cookie userAgent : Option Text) (task : DownloadTask) : Option DownloadTask :=
  if task.kind = .http then some { task with options := retryOptions task.options cookie userAgent, status := .waiting } else none

def remove (task : DownloadTask) : DownloadTask := { task with status := .removed }

/-- What a worker hands to `finish_task_boxed`. -/
inductive DownloadResult where
  /-- The name that `on_ok` sets, and the number of files of a Usenet download. -/
  | ok (name : Option Text) (files : ℕ)
  | cancelled
  | error

/-- `finish_task_boxed`, of the task it finds when the entry is current. -/
def finishTask (result : DownloadResult) (task : DownloadTask) : Option DownloadTask :=
  if task.status ≠ .active then none
  else
    match result with
    | .ok name files => some { task with out := name.getD task.out, status := .complete, fileCount := if task.kind = .usenet then files else 1 }
    | .cancelled => some { task with status := .paused }
    | .error => some { task with status := .error }

/-- `metalink_finish`. -/
def metalinkFinish (done : Bool) (task : DownloadTask) : Option DownloadTask :=
  if task.status = .active then some { task with status := if done then .complete else .paused } else none

/-- A task of an active torrent that fails: the magnet resolver, or adding a saved torrent again. -/
def failTorrent (task : DownloadTask) : Option DownloadTask := if task.status = .active then some { task with status := .error } else none

/-- What `update_progress` finds about a torrent. -/
structure TorrentStats where
  error : Bool
  resumedSinceSnapshot : Bool
  isFinished : Bool
  keep : Bool
  now : ℕ
  shouldStop : Bool

/-- `update_progress`, of a torrent. -/
def torrentProgress (stats : TorrentStats) (task : DownloadTask) : DownloadTask :=
  if task.kind ≠ .torrent ∨ task.status ≠ .active then task
  else
    let task := if stats.error ∧ task.seeder = false ∧ stats.resumedSinceSnapshot = false then { task with status := .error } else task
    let task :=
      if stats.isFinished ∧ task.seeder = false then
        if stats.keep then { task with seeder := true, seedingSince := stats.now } else { task with status := .complete }
      else task
    if task.seeder ∧ 0 < task.seedingSince ∧ stats.shouldStop then { task with seeder := false, seedingSince := 0, status := .complete } else task

/-- `remember_torrent_id_in`, of a torrent that the engine has dropped. -/
def completeDropped (gids : List Gid) (task : DownloadTask) : DownloadTask :=
  if task.gid ∈ gids ∧ task.status = .active then { task with seeder := false, seedingSince := 0, status := .complete } else task

/-- `update_progress`, of a download that has adopted a name. -/
def adoptName (name : Gid → Option Text) (task : DownloadTask) : DownloadTask :=
  if task.status = .active then { task with out := (name task.gid).getD task.out } else task

/-- `pause_all`, of one task. -/
def pauseAny (task : DownloadTask) : DownloadTask := (pause task).getD task

/-- `unpause_all`, of one task. -/
def unpauseAny (torrentGids : List Gid) (task : DownloadTask) : DownloadTask :=
  if task.status ≠ .paused then task
  else if task.kind ≠ .torrent then { task with status := .waiting }
  else if task.gid ∈ torrentGids then { task with status := .active }
  else task

/-- The first section of `reload_p2p_profile`. -/
def reloadPause (task : DownloadTask) : DownloadTask :=
  if task.status = .active ∧ task.kind.isP2p then { task with status := .paused } else task

/-- The second one, of a task that the first has paused. -/
def reloadResume (task : DownloadTask) : Option DownloadTask :=
  if task.status = .paused then some { task with status := if task.kind = .torrent then .active else .waiting } else none

/-- `mark_p2p_reload_failed`. -/
def reloadFailed (gids : List Gid) (task : DownloadTask) : DownloadTask :=
  if task.gid ∈ gids ∧ (task.status = .active ∨ task.status = .waiting ∨ task.status = .paused) then { task with status := .paused } else task

/-! ## Edits of the list -/

/-- A new task, as `enqueue` pushes it. -/
def enqueued (R : OptionReader) (now : ℕ) (task : DownloadTask) : DownloadTask :=
  match (R.requestedStart task.options).filter fun ts => now < ts with
  | some ts => { task with startAt := some ts, status := .scheduled }
  | none => if R.requestsPause task.options then { task with status := .paused } else task

/-- `move_tasks`. -/
def moveTasks (gids : List Gid) (target : Gid) (after : Bool) (tasks : List DownloadTask) : Option (List DownloadTask) :=
  let moved := tasks.filter fun t => gids.contains t.gid
  let remaining := tasks.filter fun t => !gids.contains t.gid
  if moved.isEmpty || !remaining.any (·.gid == target) then none
  else
    let at' := remaining.findIdx (·.gid == target)
    let insertAt := if after then at' + 1 else at'
    some (remaining.take insertAt ++ moved ++ remaining.drop insertAt)

/-- The places of the waiting queue. -/
def waitingIndices (tasks : List DownloadTask) : List ℕ :=
  tasks.zipIdx.filterMap fun entry => if entry.1.status = .waiting ∨ entry.1.status = .paused then some entry.2 else none

inductive PositionMode where
  | set
  | cur
  | fromEnd

/-- `target_waiting_pos` of `change_position`. A sum of 64 bits wraps. -/
def targetWaitingPos (current count : ℕ) (pos : Int64) : PositionMode → ℕ
  | .set => min pos.toInt.toNat (count - 1)
  | .cur => min (Int64.ofInt (current + pos.toInt)).toInt.toNat (count - 1)
  | .fromEnd => min (if 0 ≤ pos.toInt then count - 1 else (count - 1 + pos.toInt).toNat) (count - 1)

/-- `change_position`. -/
def changePosition (gid : Gid) (pos : Int64) (how : PositionMode) (tasks : List DownloadTask) : Option (List DownloadTask) :=
  let waiting := waitingIndices tasks
  match waiting.findIdx? fun i => tasks[i]?.any (·.gid == gid) with
  | none => none
  | some current =>
    let target := targetWaitingPos current waiting.length pos how
    if current = target then none
    else
      match waiting[current]?.bind fun i => tasks[i]?.map (i, ·) with
      | none => none
      | some (i, task) =>
        let rest := tasks.eraseIdx i
        some (rest.insertIdx ((waitingIndices rest)[target]?.getD rest.length) task)

/-- The writers of the list of tasks. The kind of a task never changes, so what was read of it before is read of the task here. -/
inductive Section where
  /-- A new task is Waiting. -/
  | enqueue (now : ℕ) (task : DownloadTask)
  /-- `add_torrent_task` and `add_magnet_task`. -/
  | addTorrent (status : TaskStatus) (task : DownloadTask)
  | start (gid : Gid)
  | preempt (gid : Gid)
  | pause (gid : Gid)
  | pauseAll
  | unpause (gid : Gid)
  | unpauseAll (torrentGids : List Gid)
  | checkScheduled (now : ℕ)
  | setTaskSchedule (gid : Gid) (startAt : ℕ)
  | startTaskNow (gid : Gid)
  | moveTasks (gids : List Gid) (target : Gid) (after : Bool)
  | changePosition (gid : Gid) (pos : Int64) (how : PositionMode)
  | retryWithCookies (gid : Gid) (cookie userAgent : Option Text)
  | remove (gid : Gid)
  | updateTask (gid : Gid) (patch : TaskPatch) (privateTorrent : Bool)
  /-- `update_task` gives up when the worker does not exit in time. -/
  | revertRestart (gid : Gid)
  /-- `update_task` writes its copy. -/
  | writeBack (staged : DownloadTask)
  | changeOption (gid : Gid) (opts : List (OptionKey × Value))
  | finishTask (gid : Gid) (result : DownloadResult)
  | metalinkFinish (gid : Gid) (done : Bool)
  | failTorrent (gid : Gid)
  | attachMagnet (gid : Gid) (selection : Text)
  | replayTrackers (gid : Gid) (announced : List (List Text))
  | adoptNames (name : Gid → Option Text)
  | updateProgress (stats : Gid → Option TorrentStats)
  | completeDropped (gids : List Gid)
  | reloadPause
  | reloadResume (gid : Gid)
  | reloadFailed (gids : List Gid)
  /-- `enforce_result_cap`. -/
  | evict (gids : List Gid)
  | purgeDownloadResult
  | removeDownloadResult (gid : Gid)

/-- The list that a section leaves. -/
def Section.apply (R : OptionReader) (tasks : List DownloadTask) : Section → Option (List DownloadTask)
  | enqueue now task => some (tasks ++ [enqueued R now { task with status := .waiting }])
  | addTorrent status task => if status = .active ∨ status = .paused ∨ status = .error then some (tasks ++ [{ task with status := status }]) else none
  | start gid => editTask gid Engine.start tasks
  | preempt gid => editTask gid Engine.preempt tasks
  | pause gid => editTask gid Engine.pause tasks
  | pauseAll => some (tasks.map pauseAny)
  | unpause gid => editFirst (fun t => t.gid == gid && resumable t) (fun t => some (Engine.unpause t)) tasks
  | unpauseAll torrentGids => some (tasks.map (unpauseAny torrentGids))
  | checkScheduled now => some (tasks.map (Engine.checkScheduled now))
  | setTaskSchedule gid startAt => editTask gid (Engine.setTaskSchedule startAt) tasks
  | startTaskNow gid => editTask gid Engine.startTaskNow tasks
  | moveTasks gids target after => Engine.moveTasks gids target after tasks
  | changePosition gid pos how => Engine.changePosition gid pos how tasks
  | retryWithCookies gid cookie userAgent => editTask gid (Engine.retryWithCookies cookie userAgent) tasks
  | remove gid => editTask gid (fun t => some (Engine.remove t)) tasks
  | updateTask gid patch privateTorrent => editTask gid (fun t => (Engine.updateTask R patch privateTorrent t).map (·.1)) tasks
  | revertRestart gid => editTask gid (fun t => if t.status = .waiting then some { t with status := .active } else none) tasks
  | writeBack staged => editTask staged.gid (fun t => some { staged with status := t.status }) tasks
  | changeOption gid opts => editTask gid (fun t => some (changeOptions R t opts)) tasks
  | finishTask gid result => editTask gid (Engine.finishTask result) tasks
  | metalinkFinish gid done => editTask gid (Engine.metalinkFinish done) tasks
  | failTorrent gid => editFirst (fun t => t.gid == gid && t.kind == .torrent && t.status == .active) Engine.failTorrent tasks
  | attachMagnet gid selection =>
    editFirst (fun t => t.gid == gid && t.kind == .torrent && t.status == .active)
      (fun t => some { t with options := if (t.options .selectFile).isSome then t.options else t.options.insert .selectFile (.text selection) }) tasks
  | replayTrackers gid announced =>
    editFirst (fun t => t.gid == gid && t.kind == .torrent)
      (fun t => some { t with announceList := announced, options := t.options.insert .btTracker (.text (R.joinTrackers announced)) }) tasks
  | adoptNames name => some (tasks.map (adoptName name))
  | updateProgress stats => some (tasks.map fun t => (stats t.gid).elim t fun found => torrentProgress found t)
  | completeDropped gids => some (tasks.map (Engine.completeDropped gids))
  | reloadPause => some (tasks.map Engine.reloadPause)
  | reloadResume gid => editTask gid Engine.reloadResume tasks
  | reloadFailed gids => some (tasks.map (Engine.reloadFailed gids))
  | evict gids => some (tasks.filter fun t => !(t.status.isStopped && gids.contains t.gid))
  | purgeDownloadResult => some (tasks.filter fun t => !t.status.isStopped)
  | removeDownloadResult gid => some (tasks.filter fun t => !(t.gid == gid && t.status.isStopped))

/-- The gid of the task that a section adds. -/
def Section.newGid : Section → Option Gid
  | enqueue _ task | addTorrent _ task => some task.gid
  | _ => none

/-! ## Runs -/

/-- The list, and every gid that it has had. -/
structure TaskList where
  tasks : List DownloadTask
  used : List Gid

namespace TaskList

def start (tasks : List DownloadTask) : TaskList := ⟨tasks, tasks.map (·.gid)⟩

/-- One section. A gid is new. -/
def step (R : OptionReader) (s : TaskList) (a : Section) : Option TaskList :=
  if a.newGid.any s.used.contains then none else (a.apply R s.tasks).map fun tasks => ⟨tasks, a.newGid.toList ++ s.used⟩

/-- What any sections in any order make of a list of tasks with different gids. -/
def Reachable (R : OptionReader) : TaskList → Prop :=
  Reach (fun s => ∃ tasks, (tasks.map (·.gid)).Nodup ∧ s = start tasks) fun s s' => ∃ a, step R s a = some s'

end TaskList

/-!
## The active set

`reconcile_active_set` and `try_start_next_unlocked`, called again and again while nothing else happens. An Active task that is no torrent has its
worker; the others workers are those of tasks that have left Active, and these exit.
-/

/-- Whether the scheduler counts a task: it is Active or Waiting, and no torrent. -/
def DownloadTask.isQueued (task : DownloadTask) : Bool := task.kind != .torrent && (task.status == .active || task.status == .waiting)

/-- The loop of `reconcile_active_set`, from a rank on. -/
def toPreempt (maxConcurrent : ℕ) : ℕ → List DownloadTask → List Gid
  | _, [] => []
  | rank, task :: rest =>
    if task.isQueued then
      if maxConcurrent < rank + 1 ∧ task.status = .active then task.gid :: toPreempt maxConcurrent (rank + 1) rest
      else toPreempt maxConcurrent (rank + 1) rest
    else toPreempt maxConcurrent rank rest

/-- The loop of `try_start_next_unlocked`: the tasks it starts, and the list. -/
def startWaiting (skip : Gid → Bool) : ℕ → List DownloadTask → List Gid × List DownloadTask
  | 0, tasks => ([], tasks)
  | _ + 1, [] => ([], [])
  | slots + 1, task :: rest =>
    match if skip task.gid then none else start task with
    | none => ((startWaiting skip (slots + 1) rest).1, task :: (startWaiting skip (slots + 1) rest).2)
    | some started => (task.gid :: (startWaiting skip slots rest).1, started :: (startWaiting skip slots rest).2)

/-- The tasks, and the workers of tasks that have left Active. No two tasks have the same gid. -/
structure ActiveSet where
  tasks : List DownloadTask
  distinct : (tasks.map (·.gid)).Nodup
  lingering : List Gid

def activeGids (tasks : List DownloadTask) : List Gid := (tasks.filter fun t => t.kind != .torrent && t.status == .active).map (·.gid)

/-- What a call of `reconcile_active_set` preempts, starts and leaves. -/
structure Reconciled where
  preempted : List Gid
  busy : List Gid
  started : List Gid
  tasks : List DownloadTask

/-- `reconcile_active_set`. Some of the workers that have no Active task exit before the busy ones are counted. -/
def reconcile (maxConcurrent : ℕ) (updating exited : Gid → Bool) (tasks : List DownloadTask) (lingering : List Gid) : Reconciled :=
  let preempted := toPreempt maxConcurrent 0 tasks
  let left := preempted.foldl (fun tasks gid => (editTask gid preempt tasks).getD tasks) tasks
  let busy := (activeGids left ++ (lingering ++ preempted).filter (!exited ·)).dedup
  let started := startWaiting (fun gid => busy.contains gid || updating gid) (maxConcurrent - busy.length) left
  ⟨preempted, busy, started.1, started.2⟩

namespace ActiveSet

variable (s : ActiveSet) (maxConcurrent : ℕ) (updating : Gid → Bool) (exited : ℕ → Gid → Bool)

/-- The list and the lingering workers before each call: between two calls, the workers that have no Active task exit. -/
def before : ℕ → List DownloadTask × List Gid
  | 0 => (s.tasks, s.lingering)
  | k + 1 => ((reconcile maxConcurrent updating (exited k) (before k).1 (before k).2).tasks, [])

/-- What each call does. -/
def call (k : ℕ) : Reconciled :=
  reconcile maxConcurrent updating (exited k) (s.before maxConcurrent updating exited k).1 (s.before maxConcurrent updating exited k).2

end ActiveSet

/-- Whether a start of the task is possible. -/
def DownloadTask.startable (updating : Gid → Bool) (task : DownloadTask) : Bool := task.hasData && !updating task.gid

/-- The first startable tasks among the Active or Waiting ones. -/
def firstStartable (maxConcurrent : ℕ) (updating : Gid → Bool) (tasks : List DownloadTask) : List Gid :=
  (((tasks.filter (·.isQueued)).filter (·.startable updating)).take maxConcurrent).map (·.gid)

/-!
## Edits while a worker restarts

`update_task` of `manager.rs` beside the other operations. When the worker has to restart, the call stages a copy of the task, lets go of the lock
while it waits for the worker to exit, and writes the copy back. The log holds what the calls that have returned were to do, in the order in which
they did it.
-/

/-- What a call does to the tasks if nothing comes in between: `update` is `update_task`. -/
inductive Edit where
  | ofSection (a : Section)
  | update (gid : Gid) (patch : TaskPatch)

def Edit.apply (R : OptionReader) (tasks : List DownloadTask) : Edit → Option (List DownloadTask)
  | ofSection a => a.apply R tasks
  | update gid patch => editTask gid (fun t => some { (applyTaskPatch R t patch).1 with status := t.status }) tasks

/-- One call after the other. A call that fails leaves the tasks as they are. -/
def runEdits (R : OptionReader) (tasks : List DownloadTask) (log : List Edit) : List DownloadTask :=
  log.foldl (fun tasks edit => (edit.apply R tasks).getD tasks) tasks

/-- A call of `update_task` that waits for the worker. -/
structure PendingUpdate where
  gid : Gid
  patch : TaskPatch
  staged : DownloadTask

structure Restarts where
  tasks : List DownloadTask
  used : List Gid
  /-- `updating_tasks`. -/
  updating : List Gid
  pending : List PendingUpdate
  log : List Edit

/-- The copy that `update_task` stages. -/
def stagedCopy (R : OptionReader) (gid : Gid) (patch : TaskPatch) (privateTorrent : Bool) (tasks : List DownloadTask) : Option DownloadTask :=
  ((tasks.find? (·.gid == gid)).bind (updateTask R patch privateTorrent)).bind (·.2)

/-- Whether a section is one of `update_task`. -/
def Section.isUpdate : Section → Bool
  | updateTask .. | writeBack _ | revertRestart _ => true
  | _ => false

namespace Restarts

inductive Action where
  /-- Any section but those of `update_task`. No task that is being updated is started. -/
  | run (a : Section)
  | updateTask (gid : Gid) (patch : TaskPatch) (privateTorrent : Bool)
  /-- The wait ends, because the worker has exited or there was none. -/
  | writeBack (i : ℕ)
  /-- The wait times out. -/
  | giveUp (i : ℕ)

def start (tasks : List DownloadTask) : Restarts := ⟨tasks, tasks.map (·.gid), [], [], []⟩

/-- Whether a section would start a task that is being updated. -/
def startsUpdating (s : Restarts) : Section → Bool
  | .start gid => s.updating.contains gid
  | _ => false

def step (R : OptionReader) (s : Restarts) : Action → Option Restarts
  | .run a =>
    if a.isUpdate || s.startsUpdating a || a.newGid.any s.used.contains then none
    else
      (a.apply R s.tasks).map fun tasks => { s with tasks := tasks, used := a.newGid.toList ++ s.used, log := s.log ++ [.ofSection a] }
  | .updateTask gid patch privateTorrent =>
    ((Section.updateTask gid patch privateTorrent).apply R s.tasks).map fun tasks =>
      match stagedCopy R gid patch privateTorrent s.tasks with
      | none => { s with tasks := tasks, log := s.log ++ [.update gid patch] }
      | some staged =>
        { s with
          tasks := tasks
          updating := gid :: s.updating
          pending := s.pending ++ [⟨gid, patch, staged⟩]
          log := s.log ++ [.ofSection (.preempt gid)] }
  | .writeBack i =>
    s.pending[i]?.map fun call =>
      { s with
        tasks := ((Section.writeBack call.staged).apply R s.tasks).getD s.tasks
        updating := s.updating.filter (· != call.gid)
        pending := s.pending.eraseIdx i
        log := s.log ++ [.update call.gid call.patch] }
  | .giveUp i =>
    s.pending[i]?.map fun call =>
      { s with
        tasks := ((Section.revertRestart call.gid).apply R s.tasks).getD s.tasks
        updating := s.updating.filter (· != call.gid)
        pending := s.pending.eraseIdx i
        log := s.log ++ [.ofSection (.revertRestart call.gid)] }

end Restarts

/-!
## Moving tasks in the queue

The calls `change_position` and `move_tasks` as a whole: the list that they leave and what they return. A section of the same name is what they do when
they change the list.
-/

inductive ReorderError where
  /-- "GID {} not in waiting queue". -/
  | notWaiting (gid : Gid)
  /-- "Invalid position mode". -/
  | invalidMode
  /-- "no matching tasks to move". -/
  | noMatching
  /-- "target task {target_gid} not found". -/
  | targetNotFound (target : Gid)
  deriving DecidableEq

/-- `how` of `change_position`. -/
def PositionMode.text : PositionMode → Text
  | .set => "POS_SET".toList
  | .cur => "POS_CUR".toList
  | .fromEnd => "POS_END".toList

def PositionMode.ofText (how : Text) : Option PositionMode :=
  if how = PositionMode.set.text then some .set
  else if how = PositionMode.cur.text then some .cur
  else if how = PositionMode.fromEnd.text then some .fromEnd
  else none

theorem PositionMode.ofText_text (mode : PositionMode) : ofText mode.text = some mode := by
  cases mode <;> rfl

def changePositionCall (gid : Gid) (pos : Int64) (how : Text) (tasks : List DownloadTask) : List DownloadTask × Except ReorderError ℕ :=
  let waiting := waitingIndices tasks
  match waiting.findIdx? fun i => tasks[i]?.any (·.gid == gid) with
  | none => (tasks, .error (.notWaiting gid))
  | some current =>
    match PositionMode.ofText how with
    | none => (tasks, .error .invalidMode)
    | some mode => ((changePosition gid pos mode tasks).getD tasks, .ok (targetWaitingPos current waiting.length pos mode))

def moveTasksCall (gids : List Gid) (target : Gid) (after : Bool) (tasks : List DownloadTask) : List DownloadTask × Except ReorderError Unit :=
  if tasks.any fun t => gids.contains t.gid then
    if tasks.any fun t => t.gid == target && !gids.contains t.gid then ((moveTasks gids target after tasks).getD tasks, .ok ())
    else (tasks, .error (.targetNotFound target))
  else (tasks, .error .noMatching)

/-! ### What the calls are for -/

/-- The waiting queue. -/
def waitingQueue (tasks : List DownloadTask) : List DownloadTask := tasks.filter fun t => t.status = .waiting ∨ t.status = .paused

/-- The place that is asked for, as an exact number. -/
def PositionMode.requested (mode : PositionMode) (current count : ℕ) (pos : ℤ) : ℤ :=
  match mode with
  | .set => pos
  | .cur => current + pos
  | .fromEnd => count - 1 + pos

/-- One task is taken out and put in elsewhere, and the others stay as they are. -/
def MovesOne (gid : Gid) (tasks tasks' : List DownloadTask) : Prop :=
  ∃ before behind before' behind' task, task.gid = gid ∧ tasks = before ++ task :: behind ∧ tasks' = before' ++ task :: behind' ∧
    before ++ behind = before' ++ behind'

/-- A task of the queue is moved to the place that is asked for, or to the nearest one there is. -/
def Repositions (tasks : List DownloadTask) (gid : Gid) (mode : PositionMode) (pos : Int64) : Prop :=
  ∃ tasks' n, changePositionCall gid pos mode.text tasks = (tasks', .ok n) ∧ tasks'.Perm tasks ∧ MovesOne gid tasks tasks' ∧
    (waitingQueue tasks')[n]?.any (·.gid == gid) = true ∧
    ∃ current, (waitingQueue tasks).findIdx? (·.gid == gid) = some current ∧
      (n : ℤ) = max 0 (min (mode.requested current (waitingQueue tasks).length pos.toInt) ((waitingQueue tasks).length - 1))

/-- The tasks that are named stand together beside the target, and nothing else is changed. -/
def MovesGroup (gids : List Gid) (target : Gid) (after : Bool) (tasks tasks' : List DownloadTask) : Prop :=
  ∃ before behind, tasks' = before ++ tasks.filter (fun t => gids.contains t.gid) ++ behind ∧
    before ++ behind = tasks.filter (fun t => !gids.contains t.gid) ∧
    (if after then before.getLast? else behind.head?).any (·.gid == target) = true

end Engine

end Risuko
