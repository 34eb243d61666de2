import Risuko.Lib.Reach

/-!
# Uploads to S3

The parts of `upload/s3.rs` that decide what is sent: the time a request is signed for, the parts a file is cut into, and the order in which
they are uploaded and named to the server. Numbers of the code that could overflow are integers under the checks of `u64` and `i64`.
-/

namespace Risuko

namespace S3

/-- The result of an operation on `u64`. Outside the range the code panics. -/
def u64 (x : Int) : Option Int := if 0 ≤ x ∧ x < 2 ^ 64 then some x else none

/-- The same for `i64`. -/
def i64 (x : Int) : Option Int := if -2 ^ 63 ≤ x ∧ x < 2 ^ 63 then some x else none

/-! The casts, which keep the low bits. -/

def asU64 (x : Int) : Int := x % 2 ^ 64

def asI64 (x : Int) : Int := x.bmod (2 ^ 64)

def asU8 (x : Int) : Int := x % 2 ^ 8

/-- `epoch_to_ymdhms`. -/
def epochToYmdhms (secs : UInt64) : Option (Int × Int × Int × Int × Int × Int) := do
  let secs : Int := secs.toNat
  let days := asI64 (secs / 86400)
  let rem := secs % 86400
  let h := asU8 (rem / 3600)
  let mi := asU8 (rem % 3600 / 60)
  let s := asU8 (rem % 60)
  let z ← i64 (days + 719468)
  let back ← (if 0 ≤ z then some z else i64 (z - 146096))
  let era := back.tdiv 146097
  let first ← i64 (era * 146097)
  let doe ← (i64 (z - first)).map asU64
  let a ← u64 (doe - doe / 1460)
  let b ← u64 (a + doe / 36524)
  let c ← u64 (b - doe / 146096)
  let yoe := c / 365
  let eraYears ← i64 (era * 400)
  let y ← i64 (asI64 yoe + eraYears)
  let a ← u64 (365 * yoe)
  let b ← u64 (a + yoe / 4)
  let c ← u64 (b - yoe / 100)
  let doy ← u64 (doe - c)
  let a ← u64 (5 * doy)
  let b ← u64 (a + 2)
  let mp := b / 153
  let a ← u64 (153 * mp)
  let b ← u64 (a + 2)
  let c ← u64 (doy - b / 5)
  let d ← (u64 (c + 1)).map asU8
  let mo ← (if mp < 10 then u64 (mp + 3) else u64 (mp - 9)).map asU8
  let y ← (if mo ≤ 2 then i64 (y + 1) else some y)
  return (y, mo, d, h, mi, s)

/-! ## Parts -/

def maxParts : Nat := 10000
def multipartConcurrency : Nat := 4
def partAttempts : Nat := 3

/-- `div_ceil`. -/
def divCeil (n d : Nat) : Nat := if n % d = 0 then n / d else n / d + 1

/-- `part_number`, `offset` and `len` of a part. -/
structure Descriptor where
  number : Nat
  offset : Nat
  len : Nat
  deriving DecidableEq

/-- How the loop of `upload_parts_and_complete` can fail: a number that does not fit its type stands for a panic. -/
inductive DescriptorError where
  | overflow
  | partCount
  deriving DecidableEq

/-- The loop that makes the descriptors, with those it has made. -/
def descriptorLoop (partSize total : Nat) : Nat → List Descriptor → Nat → Nat → Option (Except DescriptorError (List Descriptor))
  | 0, _, _, _ => none
  | fuel + 1, descriptors, offset, partNumber =>
    if offset < total then
      let len := min partSize (total - offset)
      let descriptors := descriptors ++ [⟨partNumber, offset, len⟩]
      if offset + len < 2 ^ 64 then
        if maxParts ≤ partNumber ∧ offset + len < total then some (.error .partCount)
        else if partNumber + 1 < 2 ^ 32 then descriptorLoop partSize total fuel descriptors (offset + len) (partNumber + 1)
        else some (.error .overflow)
      else some (.error .overflow)
    else some (.ok descriptors)

def descriptors (fuel partSize total : Nat) : Option (Except DescriptorError (List Descriptor)) := descriptorLoop partSize total fuel [] 0 1

/-- `build_complete_xml`. -/
def buildCompleteXml (parts : List (Nat × String)) : String :=
  parts.foldl (fun s (n, etag) => s ++ "<Part><PartNumber>" ++ toString n ++ "</PartNumber><ETag>" ++ etag ++ "</ETag></Part>")
    "<CompleteMultipartUpload>" ++ "</CompleteMultipartUpload>"

/-! ## Uploading them -/

/-- Where the future of a part is. -/
inductive PartStage where
  /-- It has not been polled. -/
  | waiting
  | sending (attempt : Nat)
  | backingOff (attempt : Nat)
  | done (result : Except String String)

/-- A part that is being uploaded. -/
structure PartFuture where
  part : Descriptor
  stage : PartStage

/-- What the server and the connection make of an attempt: the ETag, or an error that may be retried or not. -/
inductive PartOutcome where
  | etag (etag : String)
  | error (message : String) (retryable : Bool)

/-- An attempt that has ended. -/
structure Attempt where
  number : Nat
  attempt : Nat
  outcome : PartOutcome

/-- `upload_parts_and_complete` after its first loop. -/
structure Upload where
  /-- The parts that `buffer_unordered` has not started. -/
  queue : List Descriptor
  running : List PartFuture
  /-- What `try_collect` has collected, in the order in which it came. -/
  parts : List (Nat × String)
  cancelled : Bool
  /-- The error it returns, which drops all futures. -/
  failed : Option String
  /-- The body that `complete_multipart` sends. -/
  completed : Option String
  /-- Every attempt that has ended. -/
  attempts : List Attempt

namespace Upload

def start (descriptors : List Descriptor) : Upload := ⟨descriptors, [], [], false, none, none, []⟩

inductive Action where
  | cancel
  /-- The next part is started, if there is room. -/
  | fill
  /-- The future of a part is polled for the first time. -/
  | poll (i : Nat)
  | answer (i : Nat) (outcome : PartOutcome)
  /-- The pause before another attempt is over, or the upload is cancelled meanwhile. -/
  | wake (i : Nat) (slept : Bool)
  /-- `try_collect` takes the result of a future that is done. -/
  | collect (i : Nat)
  /-- There are no more parts. -/
  | complete

/-- The stage that follows an attempt. -/
def afterAttempt (cancelled : Bool) (attempt : Nat) : PartOutcome → PartStage
  | .etag etag => .done (.ok etag)
  | .error message retryable => if !retryable || partAttempts ≤ attempt || cancelled then .done (.error message) else .backingOff attempt

/-- Set the stage of a part. -/
def setStage (s : Upload) (i : Nat) (stage : PartStage) : Upload :=
  { s with running := s.running.modify i fun f => { f with stage := stage } }

/-- `none` for what cannot happen. -/
def step (s : Upload) (a : Action) : Option Upload :=
  if s.failed.isSome || s.completed.isSome then none
  else
    match a with
    | .cancel => some { s with cancelled := true }
    | .fill =>
      match s.queue with
      | part :: queue =>
        if s.running.length < multipartConcurrency then some { s with queue := queue, running := s.running ++ [⟨part, .waiting⟩] } else none
      | [] => none
    | .poll i =>
      match s.running[i]? with
      | some ⟨_, .waiting⟩ => some (s.setStage i (if s.cancelled then .done (.error "cancelled") else .sending 1))
      | _ => none
    | .answer i outcome =>
      match s.running[i]? with
      | some ⟨part, .sending attempt⟩ =>
        some { s.setStage i (afterAttempt s.cancelled attempt outcome) with attempts := s.attempts ++ [⟨part.number, attempt, outcome⟩] }
      | _ => none
    | .wake i slept =>
      match s.running[i]? with
      | some ⟨_, .backingOff attempt⟩ => some (s.setStage i (if s.cancelled && !slept then .done (.error "cancelled") else .sending (attempt + 1)))
      | _ => none
    | .collect i =>
      match s.running[i]? with
      | some ⟨part, .done (.ok etag)⟩ => some { s with running := s.running.eraseIdx i, parts := s.parts ++ [(part.number, etag)] }
      | some ⟨_, .done (.error message)⟩ => some { s with running := [], queue := [], failed := some message }
      | _ => none
    | .complete =>
      if s.queue.isEmpty && s.running.isEmpty then 
        some { s with completed := some (buildCompleteXml (s.parts.mergeSort fun a b => a.1 ≤ b.1)) }
      else none

/-- The states that any actions lead to. -/
def Reachable (descriptors : List Descriptor) : Upload → Prop := Reach (· = start descriptors) fun s s' => ∃ a, s.step a = some s'

end Upload

end S3

end Risuko
