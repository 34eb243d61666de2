import Risuko.Engine.Task
import Risuko.Lib.Reach

/-!
# Saving the session

The task list of `manager.rs` behind its `RevLock`, `save_session`, and the `SessionManager` of `session.rs`. A step is what one writer
or one call of `save_session` does between two points where the others may go on. The serializer and the content hash are parameters.
-/

namespace Risuko

namespace Engine

universe u v

/-- The tasks of a session, as far as saving them goes. -/
class Persisted (T : Type u) (H : outParam (Type v)) where
  status : T → TaskStatus
  /-- `serde_json::to_vec` of the session data with these tasks. -/
  toVec : List T → Except String (List UInt8)
  /-- The `DefaultHasher` of the bytes. -/
  hash : List UInt8 → H

variable {T : Type u} {H : Type v} [Persisted T H]

/-- `SessionManager::encode`. -/
def encode (tasks : List T) : Except String (List UInt8) := Persisted.toVec (tasks.filter fun t => Persisted.status t != .removed)

/-- The lock of a `RevLock` for writing: free, held by a writer, or held by a guard whose destructor has counted the write. -/
inductive WriteLock where
  | free
  | held
  | counted
  deriving DecidableEq

/-- Where a call of `save_session` is. From `gated` to `leaving` it holds the gate. -/
inductive SavePhase where
  | started
  /-- `rev` is loaded, `saved_rev` is not yet. -/
  | looking (rev : ℕ)
  | waiting
  | gated
  | encoded (rev : ℕ) (data : List UInt8)
  /-- `write` found another hash, or no file. -/
  | differing (rev : ℕ) (data : List UInt8)
  /-- The file is in place, `last_hash` is not set yet. -/
  | persisted (rev : ℕ) (data : List UInt8)
  /-- `write` has returned `Ok`. -/
  | written (rev : ℕ)
  | leaving (result : Except String Unit)
  | returned (result : Except String Unit)

def SavePhase.holdsGate : SavePhase → Bool
  | .gated | .encoded _ _ | .differing _ _ | .persisted _ _ | .written _ | .leaving _ => true
  | _ => false

/-- A call of `save_session`, with the revision of the list when it began. -/
structure SaveCall where
  began : ℕ
  phase : SavePhase

/-- The state that writers and calls share. `saved_rev` starts with a number that no list gets, which is `none`; `file` is what is at the
path of the session. The last four fields record a run: the list of each revision, the revision that the file holds, the revisions in the order they
were written, and whether the last write failed. -/
structure SessionStore (T : Type u) (H : Type v) where
  inner : List T
  rev : ℕ
  lock : WriteLock
  savedRev : Option ℕ
  gate : Option ℕ
  file : Option (List UInt8)
  lastHash : Option H
  calls : List SaveCall
  lists : List (List T)
  current : Option ℕ
  writes : List ℕ
  failed : Bool

namespace SessionStore

/-- `TaskManager::new`, on the tasks and the file that are there. -/
def new (tasks : List T) (file : Option (List UInt8)) : SessionStore T H where
  inner := tasks
  rev := 0
  lock := .free
  savedRev := none
  gate := none
  file := file
  lastHash := none
  calls := []
  lists := [tasks]
  current := none
  writes := []
  failed := false

/-- What happens next. Calls go by their places in the list. -/
inductive Action (T : Type u) where
  /-- `RevLock::write`. -/
  | lock
  | modify (tasks : List T)
  /-- `RevWriteGuard::drop`. -/
  | count
  | unlock
  | call
  | loadRev (i : ℕ)
  | loadSavedRev (i : ℕ)
  | enter (i : ℕ)
  | encode (i : ℕ)
  /-- The task of the write never ran. -/
  | joinFailed (i : ℕ) (error : String)
  | compare (i : ℕ)
  /-- `write_file_atomically`, which has not touched the file if it fails. -/
  | persist (i : ℕ) (error : Option String)
  | remember (i : ℕ)
  | store (i : ℕ)
  | leave (i : ℕ)

def setPhase (s : SessionStore T H) (i : ℕ) (c : SaveCall) (p : SavePhase) : SessionStore T H :=
  { s with calls := s.calls.set i { c with phase := p } }

/-- What a writer does. -/
def writerStep (s : SessionStore T H) : Action T → Option (SessionStore T H)
  | .lock => if s.lock = .free then some { s with lock := .held } else none
  | .modify tasks => if s.lock = .held then some { s with inner := tasks } else none
  | .count => if s.lock = .held then some { s with lock := .counted, rev := s.rev + 1, lists := s.lists ++ [s.inner] } else none
  | .unlock => if s.lock = .counted then some { s with lock := .free } else none
  | _ => none

/-- `SessionManager::write` up to its check of the hash. -/
def compare [DecidableEq H] (s : SessionStore T H) (i : ℕ) (c : SaveCall) (rev : ℕ) (data : List UInt8) : SessionStore T H :=
  if s.lastHash = some (Persisted.hash (T := T) data) ∧ s.file.isSome then { s.setPhase i c (.written rev) with current := some rev }
  else s.setPhase i c (.differing rev data)

/-- What a call of `save_session` does. -/
def callStep [DecidableEq H] (s : SessionStore T H) (i : ℕ) (c : SaveCall) (a : Action T) : Option (SessionStore T H) :=
  match a, c.phase with
  | .loadRev _, .started => some (s.setPhase i c (.looking s.rev))
  | .loadSavedRev _, .looking rev => some (s.setPhase i c (if s.savedRev = some rev then .returned (.ok ()) else .waiting))
  | .enter _, .waiting => if s.gate = none then some { s.setPhase i c .gated with gate := some i } else none
  | .encode _, .gated =>
    if s.lock = .free then
      match encode s.inner with
      | .ok data => some (s.setPhase i c (.encoded s.rev data))
      | .error e => some (s.setPhase i c (.leaving (.error e)))
    else none
  | .joinFailed _ e, .encoded _ _ =>
    some { s.setPhase i c (.leaving (.error ("session save task failed: " ++ e))) with failed := true }
  | .compare _, .encoded rev data => some (s.compare i c rev data)
  | .persist _ none, .differing rev data =>
    some { s.setPhase i c (.persisted rev data) with
      file := some data, current := some rev, writes := s.writes ++ [rev], failed := false }
  | .persist _ (some e), .differing _ _ =>
    some { s.setPhase i c (.leaving (.error ("Failed to write session: " ++ e))) with failed := true }
  | .remember _, .persisted rev data => some { s.setPhase i c (.written rev) with lastHash := some (Persisted.hash (T := T) data) }
  | .store _, .written rev => some { s.setPhase i c (.leaving (.ok ())) with savedRev := some rev }
  | .leave _, .leaving r => some { s.setPhase i c (.returned r) with gate := none }
  | _, _ => none

def step [DecidableEq H] (s : SessionStore T H) (a : Action T) : Option (SessionStore T H) :=
  match a with
  | .lock | .modify _ | .count | .unlock => s.writerStep a
  | .call => some { s with calls := s.calls ++ [⟨s.rev, .started⟩] }
  | .loadRev i | .loadSavedRev i | .enter i | .encode i | .joinFailed i _ | .compare i | .persist i _ | .remember i | .store i | .leave i =>
    s.calls[i]?.bind fun c => s.callStep i c a

/-- What writers and calls can make of the state that a `TaskManager` starts with. -/
def Reachable [DecidableEq H] : SessionStore T H → Prop :=
  Reach (fun s => ∃ tasks file, s = new tasks file) (fun s s' => ∃ a, s.step a = some s')

end SessionStore

end Engine

end Risuko
