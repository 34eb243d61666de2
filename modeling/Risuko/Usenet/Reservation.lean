import Mathlib.Data.List.DropRight
import Mathlib.Data.String.Basic
import Risuko.Lib.Lowercase

/-!
# Output reservations

`reserve_output_path` of `usenet_worker.rs` with what it calls, and `partial_path`, `resume_sidecar_path`, `resume_sidecar_matches` of
`usenet_pipeline.rs`. Tasks reserve outputs in one directory, whose entries anyone may change at any time; each inspection of an entry and each try of a
lock is a step. A path is its name in the directory. SHA-256 with its hexadecimal digits and the JSON parser are parameters.
-/

namespace Risuko

namespace Usenet

/-! ## Names -/

/-- The name of a path with one component. -/
def isFileName (name : List Char) : Bool := name ≠ [] && name ≠ ['.'] && name ≠ ['.', '.'] && !name.contains '/'

/-- `rsplit_file_at_dot`: `file_stem` and `extension` of a file name. -/
def splitAtDot (name : List Char) : List Char × Option (List Char) :=
  let after := name.rtakeWhile (· ≠ '.')
  match name.rdropWhile (· ≠ '.') with
  | [] => (name, none)
  | ['.'] => (name, none)
  | before => (before.dropLast, some after)

def fileStem (name : List Char) : List Char := (splitAtDot name).1

def extension (name : List Char) : Option (List Char) := (splitAtDot name).2

/-- `with_extension`. -/
def withExtension (name ext : List Char) : List Char := fileStem name ++ if ext = [] then [] else '.' :: ext

def partialPath (output : List Char) : List Char :=
  withExtension output ((extension output).getD "download".toList ++ ".part".toList)

def resumeSidecarPath (output : List Char) : List Char :=
  withExtension output ((extension output).getD "part".toList ++ ".resume.json".toList)

/-- The name with a number. -/
def renamed (name : List Char) (index : ℕ) : List Char :=
  match extension name with
  | some ext => fileStem name ++ " (".toList ++ (Nat.toDigits 10 index) ++ ").".toList ++ ext
  | none => fileStem name ++ " (".toList ++ (Nat.toDigits 10 index) ++ ")".toList

/-- The names that are tried: the name, 9999 with a number, and a hundred with a new identifier. -/
def candidateAt (name : List Char) (index : ℕ) (uuid : List Char) : List Char :=
  if index = 0 then name else if index < 10000 then renamed name index else name ++ '.' :: uuid

/-! ## What is read -/

structure NzbSegment where
  number : UInt32
  bytes : UInt64
  messageId : List Char

/-- The fields that `resume_sidecar_matches` reads. -/
structure ResumeSidecar where
  version : ℕ
  manifestSha256 : List Char

/-- `resumeVersion`. -/
def resumeVersion : ℕ := 2

/-- The code outside. -/
structure Readers where
  sha256Hex : List UInt8 → List Char
  readSidecar : List UInt8 → Option ResumeSidecar
  tables : CaseTables

def utf8Bytes (s : List Char) : List UInt8 := (String.ofList s).toUTF8.data.toList

/-- The bytes of a number, the highest first. -/
def toBeBytes (width n : ℕ) : List UInt8 := (List.range width).reverse.map fun k => UInt8.ofNat (n / 256 ^ k)

variable (env : Readers)

def manifestSha256 (segments : List NzbSegment) : List Char :=
  env.sha256Hex (segments.flatMap fun s => toBeBytes 4 s.number.toNat ++ toBeBytes 8 s.bytes.toNat ++ utf8Bytes s.messageId ++ [0])

/-- `output_lock_path`: the name in the directory of the locks. -/
def outputLockPath (output : List Char) : List Char :=
  env.sha256Hex (utf8Bytes (env.tables.toLowercase output)) ++ ".lock".toList

inductive IoError where
  | notFound
  | other (text : String)
  deriving DecidableEq

/-- An entry of the directory. A link answers for what it leads to. -/
inductive Entry where
  | file (bytes : List UInt8)
  | directory
  | link (answer : Except IoError (List UInt8))

abbrev Directory := List Char → Option Entry

/-- `read`. -/
def Directory.read (disk : Directory) (path : List Char) : Except IoError (List UInt8) :=
  match disk path with
  | none => .error .notFound
  | some (.file bytes) => .ok bytes
  | some .directory => .error (.other "Is a directory")
  | some (.link answer) => answer

/-! ## A task -/

/-- The texts of `reserve_output_path`, with what is put in them. -/
inductive ReserveError where
  | readMetadata (error : IoError)
  | inspectOutput (path : List Char) (error : IoError)
  | readResumeMetadata (path : List Char) (error : IoError)
  | inspectResumeMetadata (path : List Char) (error : IoError)
  | lockOutput (error : String)
  | couldNotAllocate (name : List Char)
  deriving DecidableEq

/-- What is looked at next: by `resume_sidecar_matches` the sidecar, by `output_slot_is_available` the output, the partial file, the kind of the sidecar
and its content. -/
inductive Check where
  | resume
  | output
  | partialFile
  | sidecar
  | content
  deriving DecidableEq

/-- Where a task is: in a check, before or under the lock of its candidate, before it tries the lock, with its reservation, or without one for good. -/
inductive Stage where
  | checking (locked : Bool) (check : Check)
  | locking
  | held
  | ended (error : Option ReserveError)
  deriving DecidableEq

structure Task where
  name : List Char
  segments : List NzbSegment
  index : ℕ
  candidate : List Char
  stage : Stage

inductive Verdict where
  | passed
  | next (check : Check)
  | taken
  | failed (error : ReserveError)
  deriving DecidableEq

namespace Task

/-- The first check of a candidate: one with a new identifier is not resumed. -/
def firstCheck (index : ℕ) : Check := if index < 10000 then .resume else .output

def holdsLock (t : Task) : Bool :=
  match t.stage with
  | .checking locked _ => locked
  | .held => true
  | _ => false

/-- What a check says. -/
def inspect (disk : Directory) (t : Task) : Check → Verdict
  | .resume =>
    match disk.read (resumeSidecarPath t.candidate) with
    | .error .notFound => .next .output
    | .error e => .failed (.readMetadata e)
    | .ok bytes =>
      match env.readSidecar bytes with
      | none => .next .output
      | some sidecar => if sidecar.version = resumeVersion ∧ sidecar.manifestSha256 = manifestSha256 env t.segments then .passed else .next .output
  | .output => if (disk t.candidate).isSome then .taken else .next .partialFile
  | .partialFile => if (disk (partialPath t.candidate)).isSome then .taken else .next .sidecar
  | .sidecar =>
    match disk (resumeSidecarPath t.candidate) with
    | none => .passed
    | some (.file _) => .next .content
    | some _ => .taken
  | .content =>
    match disk.read (resumeSidecarPath t.candidate) with
    | .error e => .failed (.readResumeMetadata (resumeSidecarPath t.candidate) e)
    | .ok bytes => if (env.readSidecar bytes).isNone then .passed else .taken

/-- The next candidate. A lock that was taken for this one is released. -/
def retry (uuid : List Char) (t : Task) : Task :=
  if t.index + 1 < 10100 then
    { t with index := t.index + 1, candidate := candidateAt t.name (t.index + 1) uuid, stage := .checking false (firstCheck (t.index + 1)) }
  else { t with stage := .ended (some (.couldNotAllocate t.name)) }

/-- A step of `reserve_output_path`. -/
def advance (disk : Directory) (free : Bool) (uuid : List Char) (t : Task) : Option Task :=
  match t.stage with
  | .checking locked check =>
    match t.inspect env disk check with
    | .passed => some { t with stage := if locked then .held else .locking }
    | .next check => some { t with stage := .checking locked check }
    | .taken => some (t.retry uuid)
    | .failed e => some { t with stage := .ended (some e) }
  | .locking => some (if free then { t with stage := .checking true (firstCheck t.index) } else t.retry uuid)
  | .held => none
  | .ended _ => none

end Task

/-! ## The tasks in one directory -/

structure Reservations where
  disk : Directory
  tasks : List Task

/-- `fail` is an error of the file system, `drop` the end of a reservation or of its task, `change` what anyone does to an entry. -/
inductive ReserveAction where
  | start (name : List Char) (segments : List NzbSegment)
  | advance (i : ℕ) (uuid : List Char)
  | fail (i : ℕ) (error : ReserveError)
  | drop (i : ℕ)
  | change (path : List Char) (entry : Option Entry)

namespace Reservations

/-- `try_lock`: no one holds the lock. -/
def lockFree (s : Reservations) (output : List Char) : Bool :=
  s.tasks.all fun t => !t.holdsLock || outputLockPath env t.candidate ≠ outputLockPath env output

def step (s : Reservations) : ReserveAction → Option Reservations
  | .start name segments =>
    if isFileName name then some { s with tasks := s.tasks ++ [⟨name, segments, 0, name, .checking false (Task.firstCheck 0)⟩] } else none
  | .advance i uuid =>
    match s.tasks[i]? with
    | none => none
    | some t => (t.advance env s.disk (s.lockFree env t.candidate) uuid).map fun t' => { s with tasks := s.tasks.set i t' }
  | .fail i error =>
    match s.tasks[i]? with
    | none => none
    | some t =>
      match t.stage with
      | .checking _ _ | .locking => some { s with tasks := s.tasks.set i { t with stage := .ended (some error) } }
      | .held | .ended _ => none
  | .drop i =>
    match s.tasks[i]? with
    | none => none
    | some t => some { s with tasks := s.tasks.set i { t with stage := .ended none } }
  | .change path entry => some { s with disk := fun p => if p = path then entry else s.disk p }

/-- No task has begun. -/
def Idle (s : Reservations) : Prop := s.tasks = []

end Reservations

/-! ## Paths that meet -/

/-- What a reservation is for: the output, the partial file and the sidecar. -/
def paths (output : List Char) : List (List Char) := [output, partialPath output, resumeSidecarPath output]

/-- No path of the one is a path of the other, without regard to case. -/
def PathsApart (t : CaseTables) (output other : List Char) : Prop :=
  ∀ p ∈ paths output, ∀ q ∈ paths other, t.foldCase p ≠ t.foldCase q

/-- What a name may have behind another one, for a path of the one to be a path of the other. -/
def shadowSuffixes : Bool → Bool → List (List Char)
  | true, _ => [".part".toList, ".resume.json".toList]
  | false, false => [".download.part".toList, ".part.resume.json".toList]
  | false, true => [".download.part".toList, ".part.resume.json".toList, ".download".toList, ".part".toList]

def Shadows (t : CaseTables) (output other : List Char) : Prop :=
  ∃ suffix ∈ shadowSuffixes (extension output).isSome (extension other).isSome, t.foldCase other = t.foldCase output ++ suffix

/-- Names that do not have one lock, but have paths that meet: they differ in the form of a sigma only, or the one shadows the other. -/
def Rivals (t : CaseTables) (output other : List Char) : Prop :=
  (t.foldCase output = t.foldCase other ∧ t.toLowercase output ≠ t.toLowercase other) ∨ Shadows t output other ∨ Shadows t other output

instance (t : CaseTables) (output other : List Char) : Decidable (Shadows t output other) := inferInstanceAs (Decidable (∃ _ ∈ _, _))

instance (t : CaseTables) (output other : List Char) : Decidable (Rivals t output other) := inferInstanceAs (Decidable (_ ∨ _ ∨ _))

/-- The check under the lock has nothing against the candidate. -/
def Task.passesUnderLock (disk : Directory) (t : Task) : Bool :=
  match t.stage with
  | .checking true check => t.inspect env disk check = .passed
  | _ => false

namespace Reservations

/-- If a step is to hand out a reservation, its name has no rival among the names of the reservations held. -/
def Clear (s : Reservations) : ReserveAction → Prop
  | .advance i _ => ∀ t ∈ s.tasks[i]?, t.passesUnderLock env s.disk → ∀ t' ∈ s.tasks, t'.stage = .held → ¬Rivals env.tables t.candidate t'.candidate
  | _ => True

instance (s : Reservations) (a : ReserveAction) : Decidable (s.Clear env a) := by
  cases a <;> unfold Clear <;> infer_instance

end Reservations

end Usenet

end Risuko
