import Mathlib.Logic.Function.Basic
import Mathlib.Data.Nat.Notation

/-!
# Tasks

The parts of `task.rs` that the task list is managed by. A gid is only compared, so it is a number here.
-/

namespace Risuko

namespace Engine

inductive TaskStatus where
  | active
  | waiting
  | paused
  | scheduled
  | complete
  | error
  | removed
  deriving DecidableEq

/-- `is_stopped`. -/
def TaskStatus.isStopped : TaskStatus → Bool
  | .complete | .error | .removed => true
  | _ => false

inductive TaskKind where
  | http
  | media
  | torrent
  | ed2k
  | m3u8
  | ftp
  | metalink
  | usenet
  | adc
  | gnutella
  | g2
  | gift
  deriving DecidableEq

/-- `is_p2p_task_kind`. -/
def TaskKind.isP2p : TaskKind → Bool
  | .torrent | .ed2k | .adc | .gnutella | .g2 | .gift => true
  | _ => false

abbrev Gid := ℕ

abbrev Text := List Char

/-! ## Options -/

/-- The keys of task options. Those that `manager.rs` names are told apart. -/
inductive OptionKey where
  | split
  | maxDownloadLimit
  | maxUploadLimit
  | header
  | allProxy
  | proxy
  | noProxy
  | userAgent
  | referer
  | cookie
  | maxConnectionPerServer
  | minSplitSize
  | checksum
  | ftpUser
  | ftpPasswd
  | sftpPrivateKey
  | sftpPrivateKeyPassphrase
  | dir
  | out
  | seedTime
  | seedRatio
  | btTracker
  | selectFile
  | other (name : Text)
  deriving DecidableEq

/-- A JSON value. `other` stands for those that are no text and no natural number. -/
inductive Value where
  | null
  | text (t : Text)
  | number (n : ℕ)
  | other (code : ℕ)
  deriving DecidableEq

/-- `as_str`. -/
def Value.asStr : Value → Option Text
  | .text t => some t
  | _ => none

abbrev Options := OptionKey → Option Value

namespace Options

def empty : Options := fun _ => none

def insert (options : Options) (key : OptionKey) (value : Value) : Options := Function.update options key (some value)

def remove (options : Options) (key : OptionKey) : Options := Function.update options key none

end Options

/-- What the manager reads and writes of a `DownloadTask`. -/
structure DownloadTask where
  gid : Gid
  status : TaskStatus
  kind : TaskKind
  uris : List Text
  dir : Text
  out : Text
  /-- The length of `files`. -/
  fileCount : ℕ
  options : Options
  /-- Whether `usenet` is there. -/
  usenet : Bool
  announceList : List (List Text)
  seeder : Bool
  seedingSince : ℕ
  startAt : Option ℕ
  scheduleMissed : Bool

/-- `new_http`. -/
def DownloadTask.newHttp (gid : Gid) (uris : List Text) (dir : Text) (options : Options) : DownloadTask :=
  { gid := gid
    status := .waiting
    kind := .http
    uris := uris
    dir := dir
    out := ((options .out).bind Value.asStr).getD []
    fileCount := if uris = [] then 0 else 1
    options := options
    usenet := false
    announceList := []
    seeder := false
    seedingSince := 0
    startAt := none
    scheduleMissed := false }

/-- Whether one of the branches of `try_start_next_unlocked` takes the task. -/
def DownloadTask.hasData (task : DownloadTask) : Bool :=
  match task.kind with
  | .torrent => false
  | .metalink => 0 < task.fileCount
  | .usenet => task.usenet
  | _ => !task.uris.isEmpty

end Engine

end Risuko

/-!
## Edits of a task

`apply_task_patch` and the parts of `change_option`, `retry_with_cookies` and `update_task` that edit a task. What these read out of texts (numbers,
file names, tracker lists) is a parameter.
-/

namespace Risuko

namespace Engine

/-- How the manager reads the values of options. -/
structure OptionReader where
  /-- `seed-time` as a number, or zero. -/
  seedTime : Value → ℕ
  /-- Whether a `seed-ratio` is a number that is not positive. -/
  ratioStops : Value → Option Bool
  /-- `sanitize_filename`, of a trimmed text. -/
  sanitizeFilename : Text → Text
  trim : Text → Text
  splitTrackerList : Text → List Text
  /-- `unique_tracker_urls`, joined by line breaks. -/
  joinTrackers : List (List Text) → Text
  /-- `is_supported_http_task_uri`. -/
  supportedUri : Text → Bool
  /-- `task_requests_pause`. -/
  requestsPause : Options → Bool
  /-- `risuko-start-at` as a number. -/
  requestedStart : Options → Option ℕ

/-- A `TaskPatch`, as `update_task` has normalised it before it takes the lock. -/
structure TaskPatch where
  uris : Option (List Text)
  dir : Option Text
  out : Option Text
  trackers : List Text
  options : List (OptionKey × Value)

structure AppliedTaskPatch where
  pathChanged : Bool
  urisChanged : Bool
  primaryUriChanged : Bool
  optionsNeedRestart : Bool
  trackerUrlsToAdd : List Text

/-- `UPDATE_RESTART_OPTION_KEYS`. -/
def updateRestartOptionKeys : List OptionKey :=
  [.split, .maxDownloadLimit, .header, .allProxy, .proxy, .noProxy, .userAgent, .referer, .cookie, .maxConnectionPerServer, .minSplitSize, .checksum,
    .ftpUser, .ftpPasswd, .sftpPrivateKey, .sftpPrivateKeyPassphrase]

variable (R : OptionReader)

/-- The first part of `apply_task_patch`. -/
def patchUris (task : DownloadTask) : Option (List Text) → DownloadTask
  | none => task
  | some uris =>
    if uris = task.uris then task
    else { task with uris := uris, fileCount := if task.fileCount = 0 ∧ uris ≠ [] then 1 else task.fileCount }

/-- The second part: the directory and the name, which the options repeat. -/
def patchPath (task : DownloadTask) (dir out : Option Text) : Bool × DownloadTask :=
  let changed := dir.any (· != task.dir) || out.any (· != task.out)
  let task := { task with dir := dir.getD task.dir, out := out.getD task.out }
  if changed then
    let options := task.options.insert .dir (.text task.dir)
    (true, { task with options := if task.out = [] then options else options.insert .out (.text task.out) })
  else (false, task)

/-- What the third part carries along: whether the path has changed, whether a restart is needed, and the task. -/
structure Patching where
  pathChanged : Bool
  needRestart : Bool
  task : DownloadTask

/-- A new directory or name among the options. -/
def patchNamed (task : DownloadTask) (key : OptionKey) (value : Value) : Bool × DownloadTask :=
  match key, value.asStr with
  | .dir, some text =>
    let dir := R.trim text
    if dir ≠ [] ∧ dir ≠ task.dir then (true, { task with dir := dir }) else (false, task)
  | .out, some text =>
    let out := R.sanitizeFilename (R.trim text)
    if R.trim text ≠ [] ∧ out ≠ [] ∧ out ≠ task.out then (true, { task with out := out }) else (false, task)
  | _, _ => (false, task)

/-- The loop of the third part. -/
def patchOption (acc : Patching) (entry : OptionKey × Value) : Patching :=
  let restart := updateRestartOptionKeys.contains entry.1
  if entry.2 = .null then
    { acc with
      needRestart := acc.needRestart || (restart && (acc.task.options entry.1).isSome)
      task := { acc.task with options := acc.task.options.remove entry.1 } }
  else
    let named := patchNamed R acc.task entry.1 entry.2
    { pathChanged := acc.pathChanged || named.1
      needRestart := acc.needRestart || (restart && acc.task.options entry.1 != some entry.2)
      task := { named.2 with options := named.2.options.insert entry.1 entry.2 } }

/-- The trackers that the task does not have yet, each once. -/
def newTrackers (task : DownloadTask) (trackers : List Text) : List Text :=
  let listed := task.announceList.flatten ++ ((task.options .btTracker).bind Value.asStr |>.map R.splitTrackerList |>.getD [])
  trackers.foldl (fun added url => if url ∈ listed ++ added then added else added ++ [url]) []

/-- The last part. -/
def patchTrackers (task : DownloadTask) (trackers : List Text) : List Text × DownloadTask :=
  let added := newTrackers R task trackers
  if added = [] then ([], task)
  else
    let announceList := task.announceList ++ [added]
    (added, { task with announceList := announceList, options := task.options.insert .btTracker (.text (R.joinTrackers announceList)) })

/-- `apply_task_patch`. The paths of the files are left out. -/
def applyTaskPatch (task : DownloadTask) (patch : TaskPatch) : DownloadTask × AppliedTaskPatch :=
  let path := patchPath (patchUris task patch.uris) patch.dir patch.out
  let patched := patch.options.foldl (patchOption R) ⟨path.1, false, path.2⟩
  let trackers := patchTrackers R patched.task patch.trackers
  (trackers.2,
    { pathChanged := patched.pathChanged
      urisChanged := patch.uris.any (· != task.uris)
      primaryUriChanged := patch.uris.any fun uris => uris.head?.getD [] != task.uris.head?.getD []
      optionsNeedRestart := patched.needRestart
      trackerUrlsToAdd := trackers.1 })

/-- An option that a list of options sets. -/
def givenOption (opts : List (OptionKey × Value)) (key : OptionKey) : Option Value := (opts.find? fun entry => entry.1 == key).map (·.2)

/-- The text of an option of a patch, as `update_task` reads it. -/
def TaskPatch.optionText (patch : TaskPatch) (key : OptionKey) (read : Text → Text) : Option Text :=
  (((givenOption patch.options key).bind Value.asStr).map read).filter (· != [])

/-- Whether `update_task` returns an error when it has found the task. -/
def updateRefused (task : DownloadTask) (patch : TaskPatch) (privateTorrent : Bool) : Bool :=
  (task.status.isStopped && task.status != .error)
    || (task.kind == .http && patch.uris.any fun uris => uris.any fun uri => !R.supportedUri uri)
    || (if task.kind = .torrent then
          patch.uris.any (· != task.uris)
            || patch.dir.any (· != task.dir) || (patch.optionText .dir R.trim).any (· != task.dir)
            || patch.out.any (· != task.out) || (patch.optionText .out fun t => R.sanitizeFilename (R.trim t)).any (· != task.out)
        else !patch.trackers.isEmpty)
    || (privateTorrent && !(applyTaskPatch R task patch).2.trackerUrlsToAdd.isEmpty)

/-- `needs_restart`. -/
def needsRestart (task : DownloadTask) (patch : TaskPatch) : Bool :=
  let applied := (applyTaskPatch R task patch).2
  task.status == .active && task.kind != .torrent && (applied.urisChanged || applied.pathChanged || applied.optionsNeedRestart)

/-- What `update_task` makes of the task when it has found it, and the copy that it stages if the worker has to restart. -/
def updateTask (patch : TaskPatch) (privateTorrent : Bool) (task : DownloadTask) : Option (DownloadTask × Option DownloadTask) :=
  if updateRefused R task patch privateTorrent then none
  else
    let staged := (applyTaskPatch R task patch).1
    if needsRestart R task patch then some ({ task with status := .waiting }, some staged) else some ({ staged with status := task.status }, none)

/-- The options that `retry_with_cookies` sets. -/
def retryOptions (options : Options) (cookie userAgent : Option Text) : Options :=
  let set (options : Options) (key : OptionKey) (value : Option Text) : Options :=
    match value with
    | none | some [] => options
    | some text => options.insert key (.text text)
  set (set options .cookie cookie) .userAgent userAgent

/-- Whether `change_option` stops the seeding of a task. -/
def stopsSeeding (task : DownloadTask) (opts : List (OptionKey × Value)) : Bool :=
  match givenOption opts .seedTime with
  | none => false
  | some value =>
    let ratio := ((givenOption opts .seedRatio).bind R.ratioStops).orElse fun _ => (task.options .seedRatio).bind R.ratioStops
    R.seedTime value == 0 && task.seeder && ratio.getD true

/-- `change_option`. -/
def changeOptions (task : DownloadTask) (opts : List (OptionKey × Value)) : DownloadTask :=
  let stopped := if stopsSeeding R task opts then { task with seeder := false, seedingSince := 0, status := .complete } else task
  { stopped with options := opts.foldl (fun options entry => options.insert entry.1 entry.2) task.options }

end Engine

end Risuko
