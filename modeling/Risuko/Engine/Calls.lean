import Risuko.Engine.Workers

/-!
# Calls that stop a worker

The calls of `manager.rs` that take a task out of Active, beside the starter and the workers. A call is what it has still to do after each lock it has
taken (`Op`). What it does on the way to `try_start_next` are steps of the starter, and `reconcile_active_set` is calls of `preempt`.
-/

namespace Risuko

namespace Engine

/-- Whether a task of this gid is Active. -/
def hasActive (tasks : List DownloadTask) (gid : Gid) : Bool := tasks.any fun t => t.gid == gid && t.status == .active

/-- The two calls that look for the token before they write. -/
inductive Stopping where
  | pause
  | remove
  deriving DecidableEq

def Stopping.section (stopping : Stopping) (gid : Gid) : Section :=
  match stopping with
  | pause => .pause gid
  | remove => .remove gid

/-- What a call has still to do. -/
inductive Op where
  /-- `worker_epoch_and_cancel`: it looks in `starting_workers`, and then in `active_downloads`. -/
  | lookStarting (stopping : Stopping) (gid : Gid)
  | lookActive (stopping : Stopping) (gid : Gid)
  | cancel (stopping : Stopping) (gid : Gid) (e : Epoch)
  /-- It writes the status. `found` is the worker whose token it has cancelled. -/
  | write (stopping : Stopping) (gid : Gid) (found : Option Epoch)
  /-- It has written the status; `took` tells whether the task was Active. -/
  | cancelActive (gid : Gid) (took : Bool)
  /-- `pause_all` has written; `took` are the gids whose tasks were Active. -/
  | lookAllActive (took : List Gid)
  | cancelAllActive (took : List Gid) (tokens : List Epoch)
  | lookAllStarting
  | cancelAllStarting (tokens : List Epoch)
  /-- `update_task` has made the task Waiting, and holds the copy. -/
  | updateLookStarting (staged : DownloadTask)
  | updateLookActive (staged : DownloadTask)
  | updateCancel (staged : DownloadTask) (e : Epoch)
  | updateWait (staged : DownloadTask)
  | updateWrite (staged : DownloadTask)
  | updateGiveUp (staged : DownloadTask)

/-- Whether a call has taken the task out of Active and has still to cancel this worker of it. -/
def Op.Owes (gid : Gid) (e : Epoch) : Op → Prop
  | cancelActive gid' took => took = true ∧ gid' = gid
  | lookAllActive took => gid ∈ took
  | cancelAllActive took tokens => gid ∈ took ∧ e ∈ tokens
  | updateLookStarting staged | updateLookActive staged => staged.gid = gid
  | updateCancel staged e' => staged.gid = gid ∧ e' = e
  | _ => False

inductive Call where
  | pause (gid : Gid)
  | remove (gid : Gid)
  | pauseAll
  | preempt (gid : Gid)
  | setTaskSchedule (gid : Gid) (startAt : ℕ)
  | retryWithCookies (gid : Gid) (cookie userAgent : Option Text)
  | updateTask (gid : Gid) (patch : TaskPatch) (privateTorrent : Bool)
  /-- `enqueue`, `unpause`, `unpause_all`, `start_task_now` and `check_scheduled_tasks`, which stop nothing. -/
  | single (a : Section)

/-- Whether a section is all that a call of the last kind writes. -/
def Section.isSingle : Section → Bool
  | enqueue .. | unpause _ | unpauseAll _ | startTaskNow _ | checkScheduled _ => true
  | _ => false

namespace Manager

/-- A call writes the list of tasks, or finds nothing to write. -/
def write (R : OptionReader) (s : Manager) (a : Section) : Option Manager :=
  if s.tasksFree then some { s with list := (s.list.step R a).getD s.list } else none

def cancel (s : Manager) (e : Epoch) : Manager := { s with cancelled := insert e s.cancelled }

/-- The tokens in one of the two maps. -/
def tokens (workers : OrdMap Gid Epoch) : List Epoch := workers.entries.map Prod.snd

end Manager

namespace Call

/-- The first lock that a call takes. -/
def begin (R : OptionReader) (s : Manager) : Call → Option (Manager × Option Op)
  | pause gid => some (s, some (.lookStarting .pause gid))
  | remove gid => some (s, some (.lookStarting .remove gid))
  | pauseAll =>
    let took := (s.list.tasks.filter fun t => t.status == .active).map (·.gid)
    (s.write R .pauseAll).map (·, some (.lookAllActive took))
  | preempt gid =>
    let shouldCancel := ((Section.preempt gid).apply R s.list.tasks).isSome
    (s.write R (.preempt gid)).map (·, if shouldCancel then some (.cancelActive gid true) else none)
  | setTaskSchedule gid startAt =>
    let ok := ((Section.setTaskSchedule gid startAt).apply R s.list.tasks).isSome
    (s.write R (.setTaskSchedule gid startAt)).map (·, if ok then some (.cancelActive gid (hasActive s.list.tasks gid)) else none)
  | retryWithCookies gid cookie userAgent =>
    let wasActive := (s.list.tasks.find? (·.gid == gid)).any (·.status == .active)
    let ok := ((Section.retryWithCookies gid cookie userAgent).apply R s.list.tasks).isSome
    (s.write R (.retryWithCookies gid cookie userAgent)).map (·, if ok && wasActive then some (.cancelActive gid true) else none)
  | updateTask gid patch privateTorrent =>
    match stagedCopy R gid patch privateTorrent s.list.tasks with
    | none => (s.write R (.updateTask gid patch privateTorrent)).map (·, none)
    | some staged =>
      (s.write R (.updateTask gid patch privateTorrent)).map fun s =>
        ({ s with updating := insert gid s.updating }, some (.updateLookStarting staged))
  | single a => if a.isSingle then (s.write R a).map (·, none) else none

end Call

namespace Op

/-- The next thing that a call does. `exited` is what `update_task` makes of its wait for the worker. -/
def advance (R : OptionReader) (s : Manager) (exited : Bool) : Op → Option (Manager × Option Op)
  | lookStarting stopping gid =>
    match s.starting.get? gid with
    | some e => some (s, some (.cancel stopping gid e))
    | none => some (s, some (.lookActive stopping gid))
  | lookActive stopping gid =>
    match s.active.get? gid with
    | some e => some (s, some (.cancel stopping gid e))
    | none => some (s, some (.write stopping gid none))
  | cancel stopping gid e => some (s.cancel e, some (.write stopping gid (some e)))
  | write stopping gid _ => (s.write R (stopping.section gid)).map (·, none)
  | cancelActive gid _ =>
    match s.active.get? gid with
    | some e => some (s.cancel e, none)
    | none => some (s, none)
  | lookAllActive took => some (s, some (.cancelAllActive took (Manager.tokens s.active)))
  | cancelAllActive _ [] => some (s, some .lookAllStarting)
  | cancelAllActive took (e :: rest) => some (s.cancel e, some (.cancelAllActive took rest))
  | lookAllStarting => some (s, some (.cancelAllStarting (Manager.tokens s.starting)))
  | cancelAllStarting [] => some (s, none)
  | cancelAllStarting (e :: rest) => some (s.cancel e, some (.cancelAllStarting rest))
  | updateLookStarting staged =>
    match s.starting.get? staged.gid with
    | some e => some (s, some (.updateCancel staged e))
    | none => some (s, some (.updateLookActive staged))
  | updateLookActive staged =>
    match s.active.get? staged.gid with
    | some e => some (s, some (.updateCancel staged e))
    | none => some (s, some (.updateWrite staged))
  | updateCancel staged e => some (s.cancel e, some (.updateWait staged))
  | updateWait staged => some (s, some (if exited then .updateWrite staged else .updateGiveUp staged))
  | updateWrite staged => (s.write R (.writeBack staged)).map fun s => ({ s with updating := s.updating.erase staged.gid }, none)
  | updateGiveUp staged => (s.write R (.revertRestart staged.gid)).map fun s => ({ s with updating := s.updating.erase staged.gid }, none)

end Op

/-- The manager, and the calls that have not returned. -/
structure Calls where
  manager : Manager
  ops : List Op

namespace Calls

inductive Action where
  | call (c : Call)
  | advance (i : ℕ) (exited : Bool)
  | starter (a : StarterStep)
  | worker (e : Epoch) (a : WorkerStep)

def start (tasks : List DownloadTask) (epoch : Epoch) : Calls := ⟨Manager.start tasks epoch, []⟩

def step (R : OptionReader) (maxConcurrent : ℕ) (s : Calls) : Action → Option Calls
  | .call c => (c.begin R s.manager).map fun r => ⟨r.1, s.ops ++ r.2.toList⟩
  | .advance i exited => s.ops[i]?.bind fun op => (op.advance R s.manager exited).map fun r => ⟨r.1, s.ops.eraseIdx i ++ r.2.toList⟩
  | .starter a => (s.manager.starterStep maxConcurrent a).map (⟨·, s.ops⟩)
  | .worker e a => ((s.manager.workers e).bind fun w => s.manager.workerStep R e w a).map (⟨·, s.ops⟩)

def Initial (s : Calls) : Prop := ∃ tasks epoch, (tasks.map (·.gid)).Nodup ∧ s = start tasks epoch

/-- The states that come of any steps in any order. -/
def Reachable (R : OptionReader) (maxConcurrent : ℕ) : Calls → Prop := Reach Initial fun s s' => ∃ a, s.step R maxConcurrent a = some s'

end Calls

/-- Whether the worker has passed its startup check, and has not yet written what came of the download. -/
def Stage.passed : Stage → Bool
  | running | ended | judged _ => true
  | _ => false

namespace Calls

/-- Whether this is a `pause` or a `remove` that is about to write the status of an Active task, whose worker has passed its startup check and was not
found by the call when it looked. -/
def writesTooLate (s : Calls) : Action → Bool
  | .advance i _ =>
    match s.ops[i]? with
    | some (.write _ gid found) =>
      hasActive s.manager.list.tasks gid &&
        (s.manager.active.get? gid).any fun e => (s.manager.workers e).any (·.stage.passed) && decide (found ≠ some e)
    | _ => false
  | _ => false

/-- The states of the runs in which no call writes too late. -/
def ReachableInTime (R : OptionReader) (maxConcurrent : ℕ) : Calls → Prop :=
  Reach Initial fun s s' => ∃ a, s.writesTooLate a = false ∧ s.step R maxConcurrent a = some s'

end Calls

end Engine

end Risuko
