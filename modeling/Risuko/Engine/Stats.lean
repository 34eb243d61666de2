import Mathlib.Data.String.Basic
import Risuko.Lib.OrdMap
import Risuko.Lib.Reach

/-!
# Download statistics

`DownloadStatsManager` of `engine/stats.rs`: the store, what a call does to it under its lock, and the calls that are under way, each of which
changes the store, copies it under the lock again and writes the copy without a lock. The texts of an input are as they are once normalized, and a
document is the store that is read back from it.
-/

namespace Risuko

namespace Stats

/-- `u64` sums that stop at the largest number. -/
def saturatingAdd (a b : Nat) : Nat := min (a + b) (2 ^ 64 - 1)

def speedRetentionSecs : Int := 365 * 24 * 60 * 60

structure TaskBaseline where
  completedLength : Nat
  kind : String

structure SpeedAggregate where
  downloadSum : Nat
  uploadSum : Nat
  samples : Nat
  receivedBytes : Nat

structure SpeedMinuteBucket where
  month : String
  protocols : OrdMap String SpeedAggregate

structure DownloadStatsStore where
  baselines : OrdMap String TaskBaseline
  monthly : OrdMap String (OrdMap String Nat)
  speed : OrdMap Int SpeedMinuteBucket

structure DownloadStatsTaskInput where
  gid : String
  kind : String
  firstCompletedLength : Option Nat
  completedLength : Nat
  downloadSpeedSum : Nat
  uploadSpeedSum : Nat
  samples : Nat

structure DownloadStatsMinuteInput where
  minute : Int
  month : String
  tasks : List DownloadStatsTaskInput

namespace DownloadStatsStore

/-- `default`. -/
def default : DownloadStatsStore := ⟨.empty, .empty, .empty⟩

/-- `prune_speed`. -/
def pruneSpeed (s : DownloadStatsStore) (currentMinute : Int) : DownloadStatsStore :=
  { s with speed := s.speed.filter fun minute _ => max (currentMinute - speedRetentionSecs) (-2 ^ 63) ≤ minute }

/-- The body of the loop of `record_minute`. -/
def recordTask (minute : Int) (month : String) (s : DownloadStatsStore) (task : DownloadStatsTaskInput) : DownloadStatsStore :=
  if task.gid = "" then s
  else
    let baseline := (s.baselines.get? task.gid).getD ⟨task.firstCompletedLength.getD task.completedLength, task.kind⟩
    let received := task.completedLength - baseline.completedLength
    let protocols := (s.monthly.get? month).getD .empty
    let bucket := (s.speed.get? minute).getD ⟨month, .empty⟩
    let speed := (bucket.protocols.get? task.kind).getD ⟨0, 0, 0, 0⟩
    { baselines := s.baselines.insert task.gid ⟨task.completedLength, task.kind⟩
      monthly :=
        if 0 < received then
          s.monthly.insert month (protocols.insert task.kind (((protocols.get? task.kind).getD 0 + received) % 2 ^ 64))
        else s.monthly
      speed := s.speed.insert minute { bucket with
        protocols := bucket.protocols.insert task.kind
          { downloadSum := saturatingAdd speed.downloadSum task.downloadSpeedSum
            uploadSum := saturatingAdd speed.uploadSum task.uploadSpeedSum
            samples := saturatingAdd speed.samples (max task.samples 1)
            receivedBytes := saturatingAdd speed.receivedBytes received } } }

/-- `record_minute` under the lock. -/
def recordMinute (s : DownloadStatsStore) (input : DownloadStatsMinuteInput) : DownloadStatsStore :=
  let minute := input.minute - input.minute % 60
  (input.tasks.foldl (recordTask minute input.month) s).pruneSpeed minute

/-- `merge_store`. -/
def mergeStore (s incoming : DownloadStatsStore) : DownloadStatsStore where
  baselines := incoming.baselines.entries.foldl (fun baselines (gid, baseline) =>
    match baselines.get? gid with
    | some current => if current.completedLength < baseline.completedLength then baselines.insert gid baseline else baselines
    | none => baselines.insert gid baseline) s.baselines
  monthly := incoming.monthly.entries.foldl (fun monthly (month, protocols) =>
    monthly.insert month (protocols.entries.foldl (fun target (protocol, bytes) =>
      target.insert protocol (max ((target.get? protocol).getD 0) bytes)) ((monthly.get? month).getD .empty))) s.monthly
  speed := incoming.speed.entries.foldl (fun speed (minute, bucket) =>
    let target := (speed.get? minute).getD ⟨bucket.month, .empty⟩
    speed.insert minute
      { month := if target.month = "" then bucket.month else target.month
        protocols := bucket.protocols.entries.foldl (fun protocols (protocol, agg) =>
          let old := (protocols.get? protocol).getD ⟨0, 0, 0, 0⟩
          protocols.insert protocol ⟨max old.downloadSum agg.downloadSum, max old.uploadSum agg.uploadSum, max old.samples agg.samples,
            max old.receivedBytes agg.receivedBytes⟩) target.protocols }) s.speed

/-- `merge` under the lock, which prunes by the last minute. -/
def merge (s incoming : DownloadStatsStore) : DownloadStatsStore :=
  let merged := s.mergeStore incoming
  match merged.speed.keys.getLast? with
  | some lastMinute => merged.pruneSpeed lastMinute
  | none => merged

end DownloadStatsStore

/-! ## Calls -/

inductive Call where
  | recordMinute (input : DownloadStatsMinuteInput)
  | merge (incoming : DownloadStatsStore)
  | clear
  | query

/-- What a call does to the store under the lock; `none` for one that returns without a save. -/
def Call.change (s : DownloadStatsStore) : Call → Option DownloadStatsStore
  | recordMinute input => if input.tasks.isEmpty then none else some (s.recordMinute input)
  | merge incoming => some (s.merge incoming)
  | clear => some .default
  | query => none

/-- Where a call is that has changed the store. A copy has the number of copies taken before it. -/
inductive Saving where
  | snapshot
  | write (data : DownloadStatsStore) (number : Nat)

/-- The manager, its storage and the calls that have not returned. -/
structure Manager where
  store : DownloadStatsStore
  /-- What is stored under `STATS_STORE_KEY`. -/
  stored : Option DownloadStatsStore
  saving : List Saving
  /-- How many calls have returned an error. -/
  errors : Nat
  /-- How many copies of the store have been taken, and which of them is the stored one. -/
  taken : Nat
  written : Nat

namespace Manager

/-- What a start would load. -/
def document (s : Manager) : DownloadStatsStore := s.stored.getD .default

/-- After `load`. What is stored counts as copy number 1. -/
def start (stored : Option DownloadStatsStore) : Manager := ⟨stored.getD .default, stored, [], 0, 1, 1⟩

inductive Action where
  | call (c : Call)
  | snapshot (i : Nat)
  /-- Whether the storage takes it. -/
  | write (i : Nat) (ok : Bool)

def step (s : Manager) : Action → Option Manager
  | .call c =>
    match c.change s.store with
    | some store => some { s with store := store, saving := s.saving ++ [.snapshot] }
    | none => some s
  | .snapshot i =>
    match s.saving[i]? with
    | some .snapshot => some { s with saving := s.saving.set i (.write s.store (s.taken + 1)), taken := s.taken + 1 }
    | _ => none
  | .write i ok =>
    match s.saving[i]? with
    | some (.write data number) =>
      if ok then some { s with saving := s.saving.eraseIdx i, stored := some data, written := number }
      else some { s with saving := s.saving.eraseIdx i, errors := s.errors + 1 }
    | _ => none

def Initial (s : Manager) : Prop := ∃ stored, s = start stored

/-- The states that come of any steps in any order. -/
def Reachable : Manager → Prop := Reach Initial fun s s' => ∃ a, s.step a = some s'

/-- A step does not write a copy that is older than the stored one. -/
def inOrder (s : Manager) : Action → Bool
  | .write i true =>
    match s.saving[i]? with
    | some (.write _ number) => s.written ≤ number
    | _ => true
  | _ => true

/-- The states of the runs of such steps. -/
def ReachableInOrder : Manager → Prop := Reach Initial fun s s' => ∃ a, s.inOrder a = true ∧ s.step a = some s'

end Manager

end Stats

end Risuko
