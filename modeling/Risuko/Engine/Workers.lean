import Risuko.Engine.Sections
import Risuko.Lib.OrdMap

/-!
# Workers

The workers of `manager.rs` beside the calls that change the tasks: `try_start_next`, the two maps a worker is found in, and what a worker
does from its start to `finish_task_boxed` or `metalink_finish`. A step takes one lock. A token is told by the epoch of its worker. What
another call does in a section that holds the list of tasks is any `Section`, a call may cancel any token, and `updating_tasks` may change
at any time.
-/

namespace Risuko

namespace Engine

abbrev Epoch := ℕ

/-- How far a worker is. -/
inductive Stage where
  /-- It is in `starting_workers` and has not run. -/
  | published
  /-- It is in `active_downloads` too. -/
  | registered
  /-- It has left `starting_workers`. -/
  | cleared
  /-- Its token was not cancelled when it asked. -/
  | asked
  | running
  /-- It has nothing more to do than to finish. -/
  | ended
  /-- It has seen whether the entry under its gid is its own. -/
  | judged (current : Bool)
  /-- It has written the task. -/
  | written
  deriving DecidableEq

namespace Stage

/-- Whether the worker is in `starting_workers`. -/
def inStarting : Stage → Bool
  | published | registered => true
  | _ => false

/-- Whether the worker is in `active_downloads`. -/
def inActive : Stage → Bool
  | published => false
  | _ => true

end Stage

structure Worker where
  gid : Gid
  kind : TaskKind
  stage : Stage

/-- The loop of `try_start_next_unlocked`, which holds the list of tasks. `skipped` are the gids that were being updated when it came to them. -/
structure StartLoop where
  busy : Finset Gid
  slots : ℕ
  index : ℕ
  started : List Gid
  skipped : List Gid

/-- How far the call of `try_start_next_unlocked` is that holds `p2p_reload_lock`. -/
inductive Starter where
  | locked
  /-- It holds `active_downloads` for reading, and has the gids there. -/
  | reading (busy : Finset Gid)
  | counted (busy : Finset Gid)
  /-- It has seen a task that could start. -/
  | found (busy : Finset Gid)
  | looping (l : StartLoop)
  /-- It has made a task Active, and has still to start the worker. -/
  | publishing (l : StartLoop) (gid : Gid) (kind : TaskKind)

structure Manager where
  list : TaskList
  updating : Finset Gid
  starting : OrdMap Gid Epoch
  active : OrdMap Gid Epoch
  /-- The epochs whose tokens are cancelled. -/
  cancelled : Finset Epoch
  nextEpoch : Epoch
  workers : Epoch → Option Worker
  starter : Option Starter

/-- What the starter does. -/
inductive StarterStep where
  | lock
  /-- The manager is shutting down. -/
  | giveUp
  | readActive
  | readStarting
  | findStartable
  | openList
  | visit
  | publish

/-- What a worker does. -/
inductive WorkerStep where
  | register
  | clear
  | askToken
  | askStatus
  | endDownload
  | judge
  | write (result : DownloadResult) (done : Bool)
  | leave

inductive WorkersAction where
  | ofSection (a : Section)
  | setUpdating (gids : Finset Gid)
  | cancel (e : Epoch)
  | starter (a : StarterStep)
  | worker (e : Epoch) (a : WorkerStep)

/-- Whether a section is one of the starter or of a worker. -/
def Section.isWorkers : Section → Bool
  | start _ | finishTask .. | metalinkFinish .. => true
  | _ => false

namespace Manager

def start (tasks : List DownloadTask) (epoch : Epoch) : Manager :=
  { list := TaskList.start tasks
    updating := ∅
    starting := OrdMap.empty
    active := OrdMap.empty
    cancelled := ∅
    nextEpoch := epoch
    workers := fun _ => none
    starter := none }

/-- The gids in `active_downloads` or `starting_workers`. -/
def busyGids (s : Manager) : Finset Gid := (s.active.keys ++ s.starting.keys).toFinset

/-- Whether the list of tasks can be locked. -/
def tasksFree (s : Manager) : Bool :=
  match s.starter with
  | some (.looping _) | some (.publishing ..) => false
  | _ => true

/-- Whether `active_downloads` can be locked for writing. -/
def activeFree (s : Manager) : Bool :=
  match s.starter with
  | some (.reading _) => false
  | _ => true

/-! ## Starting -/

/-- One turn of the loop. -/
def visit (s : Manager) (l : StartLoop) : Manager :=
  if l.slots ≤ l.started.length then { s with starter := none }
  else
    match s.list.tasks[l.index]? with
    | none => { s with starter := none }
    | some task =>
      if task.status ≠ .waiting ∨ task.gid ∈ l.busy then { s with starter := some (.looping { l with index := l.index + 1 }) }
      else if task.gid ∈ s.updating then
        { s with starter := some (.looping { l with index := l.index + 1, skipped := task.gid :: l.skipped }) }
      else
        match Engine.start task with
        | none => { s with starter := some (.looping { l with index := l.index + 1 }) }
        | some task' =>
          { s with
            list := { s.list with tasks := s.list.tasks.set l.index task' }
            starter := some (.publishing l task.gid task.kind) }

/-- `publish_starting_worker`, and the spawn. -/
def publish (s : Manager) (l : StartLoop) (gid : Gid) (kind : TaskKind) : Manager :=
  { s with
    starting := s.starting.insert gid s.nextEpoch
    workers := Function.update s.workers s.nextEpoch (some ⟨gid, kind, .published⟩)
    nextEpoch := s.nextEpoch + 1
    starter := some (.looping { l with index := l.index + 1, started := l.started ++ [gid] }) }

/-- `try_start_next_unlocked`. -/
def starterStep (maxConcurrent : ℕ) (s : Manager) : StarterStep → Option Manager
  | .lock => if s.starter.isNone then some { s with starter := some .locked } else none
  | .giveUp =>
    match s.starter with
    | some .locked => some { s with starter := none }
    | _ => none
  | .readActive =>
    match s.starter with
    | some .locked => some { s with starter := some (.reading s.active.keys.toFinset) }
    | _ => none
  | .readStarting =>
    match s.starter with
    | some (.reading busy) =>
      let busy := busy ∪ s.starting.keys.toFinset
      some { s with starter := if maxConcurrent ≤ busy.card then none else some (.counted busy) }
    | _ => none
  | .findStartable =>
    match s.starter with
    | some (.counted busy) =>
      let hasStartable := s.list.tasks.any fun t => t.status == .waiting && !decide (t.gid ∈ busy) && !decide (t.gid ∈ s.updating)
      some { s with starter := if hasStartable then some (.found busy) else none }
    | _ => none
  | .openList =>
    match s.starter with
    | some (.found busy) => some { s with starter := some (.looping ⟨busy, maxConcurrent - busy.card, 0, [], []⟩) }
    | _ => none
  | .visit =>
    match s.starter with
    | some (.looping l) => some (s.visit l)
    | _ => none
  | .publish =>
    match s.starter with
    | some (.publishing l gid kind) => some (s.publish l gid kind)
    | _ => none

/-! ## Workers -/

def setStage (s : Manager) (e : Epoch) (w : Worker) (stage : Stage) : Manager :=
  { s with workers := Function.update s.workers e (some { w with stage := stage }) }

/-- What a worker of a task makes of it when it ends. -/
def finishSection (w : Worker) (result : DownloadResult) (done : Bool) : Section :=
  if w.kind = .metalink then .metalinkFinish w.gid done else .finishTask w.gid result

/-- A step of the worker `w`, whose epoch is `e`. Those for ED2K, ADC, Gnutella, G2 and giFT do not look at their token before they run. -/
def workerStep (R : OptionReader) (s : Manager) (e : Epoch) (w : Worker) : WorkerStep → Option Manager
  | .register =>
    if w.stage = .published ∧ s.activeFree then some ({ s with active := s.active.insert w.gid e }.setStage e w .registered) else none
  | .clear =>
    if w.stage = .registered then
      let starting := if s.starting.get? w.gid = some e then s.starting.erase w.gid else s.starting
      some ({ s with starting := starting }.setStage e w .cleared)
    else none
  | .askToken =>
    if w.stage = .cleared then some (s.setStage e w (if !w.kind.isP2p && decide (e ∈ s.cancelled) then .ended else .asked)) else none
  | .askStatus =>
    if w.stage = .asked ∧ s.tasksFree then
      if s.list.tasks.any fun t => t.gid == w.gid && t.status == .active then some (s.setStage e w .running)
      else some ({ s with cancelled := insert e s.cancelled }.setStage e w .ended)
    else none
  | .endDownload => if w.stage = .running then some (s.setStage e w .ended) else none
  | .judge => if w.stage = .ended then some (s.setStage e w (.judged (s.active.get? w.gid = some e))) else none
  | .write result done =>
    match w.stage with
    | .judged current =>
      if s.tasksFree then
        let tasks := ((finishSection w result done).apply R s.list.tasks).getD s.list.tasks
        some ({ s with list := if current then { s.list with tasks := tasks } else s.list }.setStage e w .written)
      else none
    | _ => none
  | .leave =>
    if w.stage = .written ∧ s.activeFree then
      let active := if s.active.get? w.gid = some e then s.active.erase w.gid else s.active
      some { s with active := active, workers := Function.update s.workers e none }
    else none

def step (R : OptionReader) (maxConcurrent : ℕ) (s : Manager) : WorkersAction → Option Manager
  | .ofSection a =>
    if s.tasksFree && !a.isWorkers then (s.list.step R a).map fun list => { s with list := list } else none
  | .setUpdating gids => some { s with updating := gids }
  | .cancel e => some { s with cancelled := insert e s.cancelled }
  | .starter a => s.starterStep maxConcurrent a
  | .worker e a => (s.workers e).bind fun w => s.workerStep R e w a

/-- The states that come of any steps in any order, while the limit stays the same. -/
def Reachable (R : OptionReader) (maxConcurrent : ℕ) : Manager → Prop :=
  Reach (fun s => ∃ tasks epoch, (tasks.map (·.gid)).Nodup ∧ s = start tasks epoch) fun s s' => ∃ a, s.step R maxConcurrent a = some s'

end Manager

end Engine

end Risuko
