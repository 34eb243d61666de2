import Risuko.Engine.Calls

/-!
# Edits that move a partial file

`update_task` from its edit to the end of `relocate_partial`, beside the starter, the workers and every other call. The wait for a worker reads one map
after the other, as the code does. What is moved is not looked at here, only when.
-/

namespace Risuko

namespace Engine

/-- Whether an edit moves the partial file of the task: `path_changed`, and no torrent. -/
def movesPartial (R : OptionReader) (gid : Gid) (patch : TaskPatch) (tasks : List DownloadTask) : Bool :=
  (tasks.find? (·.gid == gid)).any fun t => (applyTaskPatch R t patch).2.pathChanged && t.kind != .torrent

/-- A call of `update_task` that has made the task Waiting, with the copy it holds (`pending_apply`). -/
structure Updating where
  gid : Gid
  staged : DownloadTask
  moves : Bool

/-- What a call of `update_task` has still to do. -/
inductive UpdateOp where
  /-- `worker_epoch_and_cancel`: it looks in `starting_workers`, and then in `active_downloads`. -/
  | lookStarting (u : Updating)
  | lookActive (u : Updating)
  | cancel (u : Updating) (e : Epoch)
  /-- `wait_for_worker_epoch_exit` reads `active_downloads`, and then `starting_workers`. -/
  | waitActive (u : Updating) (e : Epoch)
  | waitStarting (u : Updating) (e : Epoch) (inActive : Bool)
  | revert (u : Updating)
  /-- The error is returned, which drops the guard. -/
  | giveUp (gid : Gid)
  | write (u : Updating)
  /-- `drop(updating_guard.take())`. -/
  | release (gid : Gid) (moves : Bool)
  | relocate (gid : Gid)
  /-- `relocate_partial` runs. -/
  | relocating (gid : Gid)

namespace UpdateOp

/-- The gid whose partial file the call is moving or may still move. -/
def relocates : UpdateOp → Option Gid
  | lookStarting u | lookActive u | cancel u _ | waitActive u _ | waitStarting u .. | write u => if u.moves then some u.gid else none
  | revert _ | giveUp _ => none
  | release gid moves => if moves then some gid else none
  | relocate gid | relocating gid => some gid

/-- The next thing that a call does. `choice` is whether the deadline of the wait has passed, and whether both names of the file are there. -/
def advance (R : OptionReader) (s : Manager) (choice : Bool) : UpdateOp → Option (Manager × Option UpdateOp)
  | lookStarting u =>
    match s.starting.get? u.gid with
    | some e => some (s, some (.cancel u e))
    | none => some (s, some (.lookActive u))
  | lookActive u =>
    match s.active.get? u.gid with
    | some e => some (s, some (.cancel u e))
    | none => some (s, some (.write u))
  | cancel u e => some (s.cancel e, some (.waitActive u e))
  | waitActive u e => some (s, some (.waitStarting u e (s.active.get? u.gid = some e)))
  | waitStarting u e inActive =>
    if inActive = false ∧ s.starting.get? u.gid ≠ some e then some (s, some (.write u))
    else some (s, some (if choice then .revert u else .waitActive u e))
  | revert u => (s.write R (.revertRestart u.gid)).map (·, some (.giveUp u.gid))
  | giveUp gid => some ({ s with updating := s.updating.erase gid }, none)
  | write u => (s.write R (.writeBack u.staged)).map (·, some (.release u.gid u.moves))
  | release gid moves => some ({ s with updating := s.updating.erase gid }, if moves then some (.relocate gid) else none)
  | relocate gid => some (s, if choice then some (.relocating gid) else none)
  | relocating _ => some (s, none)

end UpdateOp

/-- The section of `update_task` that edits the task. -/
def beginUpdate (R : OptionReader) (s : Manager) (gid : Gid) (patch : TaskPatch) (privateTorrent : Bool) : Option (Manager × Option UpdateOp) :=
  let moves := movesPartial R gid patch s.list.tasks
  match (s.list.tasks.find? (·.gid == gid)).bind (updateTask R patch privateTorrent) with
  | none => if s.tasksFree then some (s, none) else none
  | some (_, none) => (s.write R (.updateTask gid patch privateTorrent)).map (·, if moves then some (.relocate gid) else none)
  | some (_, some staged) =>
    (s.write R (.updateTask gid patch privateTorrent)).map fun s =>
      ({ s with updating := insert gid s.updating }, some (.lookStarting ⟨gid, staged, moves⟩))

/-- The manager, and the calls of `update_task` that have not returned. -/
structure Updates where
  manager : Manager
  ops : List UpdateOp

namespace Updates

inductive Action where
  | update (gid : Gid) (patch : TaskPatch) (privateTorrent : Bool)
  | advance (i : ℕ) (choice : Bool)
  /-- Any other call writes the list of tasks, or cancels a token. -/
  | other (a : Section)
  | cancel (e : Epoch)
  | starter (a : StarterStep)
  | worker (e : Epoch) (a : WorkerStep)

def start (tasks : List DownloadTask) (epoch : Epoch) : Updates := ⟨Manager.start tasks epoch, []⟩

def step (R : OptionReader) (maxConcurrent : ℕ) (s : Updates) : Action → Option Updates
  | .update gid patch privateTorrent => (beginUpdate R s.manager gid patch privateTorrent).map fun r => ⟨r.1, s.ops ++ r.2.toList⟩
  | .advance i choice => s.ops[i]?.bind fun op => (op.advance R s.manager choice).map fun r => ⟨r.1, s.ops.eraseIdx i ++ r.2.toList⟩
  | .other a => if !a.isWorkers && !a.isUpdate then (s.manager.write R a).map (⟨·, s.ops⟩) else none
  | .cancel e => some ⟨s.manager.cancel e, s.ops⟩
  | .starter a => (s.manager.starterStep maxConcurrent a).map (⟨·, s.ops⟩)
  | .worker e a => ((s.manager.workers e).bind fun w => s.manager.workerStep R e w a).map (⟨·, s.ops⟩)

def Initial (s : Updates) : Prop := ∃ tasks epoch, (tasks.map (·.gid)).Nodup ∧ s = start tasks epoch

/-- The states that come of any steps in any order. -/
def Reachable (R : OptionReader) (maxConcurrent : ℕ) : Updates → Prop := Reach Initial fun s s' => ∃ a, s.step R maxConcurrent a = some s'

/-- Whether a step is one of these: `try_start_next` starts a task whose file a call is moving or may still move; an edit is to move the file of a
task that is not Active while a worker of it is there; a worker leaves `starting_workers` between the two reads of a wait for it. -/
def disturbs (R : OptionReader) (s : Updates) : Action → Bool
  | .starter .publish =>
    match s.manager.starter with
    | some (.publishing _ gid _) => s.ops.any fun op => decide (op.relocates = some gid)
    | _ => false
  | .update gid patch privateTorrent =>
    ((s.manager.list.tasks.find? (·.gid == gid)).bind (updateTask R patch privateTorrent)).isSome &&
      movesPartial R gid patch s.manager.list.tasks && !hasActive s.manager.list.tasks gid &&
      ((s.manager.starting.get? gid).isSome || (s.manager.active.get? gid).isSome)
  | .worker e .clear =>
    s.ops.any fun op =>
      match op with
      | .waitStarting u e' false => u.moves && decide (e' = e)
      | _ => false
  | _ => false

/-- The states of the runs without such steps. -/
def ReachableUndisturbed (R : OptionReader) (maxConcurrent : ℕ) : Updates → Prop :=
  Reach Initial fun s s' => ∃ a, s.disturbs R a = false ∧ s.step R maxConcurrent a = some s'

end Updates

end Engine

end Risuko
