import Risuko.Http.Attempts
import Risuko.Torrent.Blocklist

/-!
# Single-connection downloads

`run_single_download` of `http.rs`, again and again on one `.part` path, with whatever the server answers. A byte of the part file is told by the version
of the resource that it was taken from. An attempt reads the length of the part file and asks in one step; the answer and its body are of the version
that the server has then.
-/

namespace Risuko

namespace Http

open Blocklist (trim splitOnce toDigit)

/-! ## Header values -/

/-- `u64::from_str`. -/
def parseU64 (text : Text) : Option ℕ :=
  let digits := if text.head? = some '+' ∧ 1 < text.length then text.drop 1 else text
  if digits.isEmpty then none
  else
    (digits.mapM (toDigit 10)).bind fun values =>
      let value := values.foldl (fun n d => n * 10 + d) 0
      if 2 ^ 64 ≤ value then none else some value

structure ContentRange where
  start : ℕ
  fin : ℕ
  total : Option ℕ

/-- `parse_content_range`. -/
def parseContentRange (value : Text) : Option ContentRange := do
  let (unit, rest) ← splitOnce ' ' (trim value)
  if unit.map Char.toLower ≠ "bytes".toList then none
  let (span, total) ← splitOnce '/' (trim rest)
  let (start, fin) ← splitOnce '-' span
  let start ← parseU64 (trim start)
  let fin ← parseU64 (trim fin)
  if fin < start then none
  let total ← if trim total = ['*'] then some none else (parseU64 (trim total)).map some
  return ⟨start, fin, total⟩

/-- `str::strip_prefix`. -/
def stripStart (start text : Text) : Option Text := if start.isPrefixOf text then some (text.drop start.length) else none

/-- The headers of a response that are read. -/
structure Headers where
  contentRange : Option Text
  cfRay : Bool
  server : Option Text
  cfMitigated : Option Text

/-- `unsatisfied_range_total`. -/
def unsatisfiedRangeTotal (headers : Headers) : Option ℕ := do
  let value ← headers.contentRange
  let rest ← stripStart "bytes".toList (trim value)
  let rest ← stripStart "*/".toList (rest.dropWhile isWhitespace)
  parseU64 (trim rest)

/-- `looks_like_cloudflare_block`. -/
def looksLikeCloudflareBlock (headers : Headers) (status : ℕ) : Bool :=
  let tells (header : Option Text) (word : String) : Bool := header.any fun text => decide (word.toList <:+: text.map Char.toLower)
  (status == 403 || status == 429 || status == 503) &&
    (headers.cfRay || tells headers.server "cloudflare" || tells headers.cfMitigated "challenge")

/-! ## Attempts -/

structure Response where
  status : ℕ
  headers : Headers

/-- How far an attempt is. -/
inductive SinglePhase where
  /-- There is none, or it has returned. -/
  | idle
  /-- The body of a version is written, from an offset on. -/
  | receiving (offset version : ℕ)
  /-- `sync_file`, `verify_part` and `finalize_download` are left. -/
  | finishing

structure Single where
  /-- The version that the server has. -/
  version : ℕ
  part : Option PartFile
  phase : SinglePhase
  /-- The files that have been renamed. -/
  finalised : List PartFile

inductive SingleAction where
  | replace (version : ℕ)
  /-- An attempt begins and gets a response. `removes` is whether a part file that has to go can be removed. -/
  | answer (r : Response) (removes : Bool)
  | receive (n : ℕ)
  | bodyEnds
  /-- The attempt is cancelled, times out, cannot write, or crashes. -/
  | fails
  | concludes (ending : Ending)

namespace Single

def existingSize (s : Single) : ℕ := s.part.elim 0 (·.length)

/-- The stale part file is removed, and the attempt returns. -/
def removeStale (s : Single) (removes : Bool) : Single := if removes then { s with part := none } else s

/-- The part file is opened, cut if it is begun again, and the body is written from an offset on. -/
def openPart (s : Single) (writeOffset : ℕ) : Single :=
  let f := s.part.getD .empty
  { s with part := some (if writeOffset = 0 ∧ 0 < s.existingSize then f.setLen 0 else f), phase := .receiving writeOffset s.version }

/-- Whether a response goes on where the part file ends. -/
def rangeValid (s : Single) (r : Response) : Bool := ((r.headers.contentRange.bind parseContentRange).map (·.start)) == some s.existingSize

/-- `run_single_download`, when it has a response. -/
def answered (s : Single) (r : Response) (removes : Bool) : Single :=
  if looksLikeCloudflareBlock r.headers r.status then s
  else if r.status = 416 ∧ 0 < s.existingSize ∧ unsatisfiedRangeTotal r.headers = some s.existingSize then { s with phase := .finishing }
  else if r.status = 416 ∧ 0 < s.existingSize then s.removeStale removes
  else if 400 ≤ r.status then s
  else if 0 < s.existingSize ∧ r.status ≠ 206 then s.openPart 0
  else if 0 < s.existingSize ∧ r.status = 206 then
    if s.rangeValid r then s.openPart s.existingSize else s.removeStale removes
  else s.openPart s.existingSize

def step (s : Single) : SingleAction → Option Single
  | .replace version => some { s with version := version }
  | .answer r removes =>
    match s.phase with
    | .idle => some (s.answered r removes)
    | _ => none
  | .receive n =>
    match s.phase with
    | .receiving offset version => some { s with part := s.part.map (·.put offset n version), phase := .receiving (offset + n) version }
    | _ => none
  | .bodyEnds =>
    match s.phase with
    | .receiving .. => some { s with phase := .finishing }
    | _ => none
  | .fails => some { s with phase := .idle }
  | .concludes ending =>
    match s.phase with
    | .finishing =>
      match ending with
      | .failed => some { s with phase := .idle }
      | .unverified => some { s with part := none, phase := .idle }
      | .verified => some { s with part := none, phase := .idle, finalised := s.part.toList ++ s.finalised }
    | _ => none

/-- No attempt has been made, and there is no part file. -/
def Initial (s : Single) : Prop := s.part = none ∧ s.phase = .idle ∧ s.finalised = []

/-- Whether a response is taken to go on with the part file though the server has a version that the part file was not taken from. -/
def mixes (s : Single) : SingleAction → Bool
  | .answer r _ =>
    decide (0 < s.existingSize) && decide (r.status = 206) && s.rangeValid r &&
      s.part.any fun f => (List.range f.length).any fun x => f.byte x != some s.version
  | _ => false

end Single

/-- Which of the answers of `Attempts` a response is, when the part file has so many bytes and the resource so many. -/
def Response.Is (r : Response) (existing length : ℕ) : Answer → Prop
  | .fails _ => looksLikeCloudflareBlock r.headers r.status = true ∨ 400 ≤ r.status ∧ ¬ (r.status = 416 ∧ 0 < existing)
  | .notSatisfiable tells => looksLikeCloudflareBlock r.headers r.status = false ∧ r.status = 416 ∧
      unsatisfiedRangeTotal r.headers = if tells then some length else none
  | .whole => looksLikeCloudflareBlock r.headers r.status = false ∧ r.status < 400 ∧ r.status ≠ 206
  | .rest => looksLikeCloudflareBlock r.headers r.status = false ∧ r.status < 400 ∧
      (existing = 0 ∨ r.status = 206 ∧ (r.headers.contentRange.bind parseContentRange).map (·.start) = some existing)
  | .wrongRange => looksLikeCloudflareBlock r.headers r.status = false ∧ r.status = 206 ∧
      (r.headers.contentRange.bind parseContentRange).map (·.start) ≠ some existing

/-- Where an attempt of `Attempts` at a single connection is. -/
def Phase.single : Phase → SinglePhase
  | .receiving offset version => .receiving offset version
  | .syncingSingle => .finishing
  | _ => .idle

end Http

end Risuko
