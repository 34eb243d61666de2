import Mathlib.Data.List.DropRight
import Risuko.Net
import Risuko.Utp.Packet

/-!
# DNS over HTTPS

`encode_query`, `parse_response` and `skip_name` of `doh.rs`. Indexing out of range is a failure of its own, so that it can be told from an error
that is returned. A host is the bytes of its name, and a time to live is in seconds.
-/

namespace Risuko

namespace Doh

def typeA : UInt16 := 1
def typeAaaa : UInt16 := 28
inductive DohError where
  /-- The text of the error, which ends with the host. -/
  | url (message : String) (host : List UInt8)
  | decode (message : String)
  | noRecords

/-- How a call may not return a value. -/
inductive Failure where
  | panic
  | error (e : DohError)

abbrev Parse := Except Failure

/-- `host.trim_end_matches('.').split('.')`. -/
def labels (host : List UInt8) : List (List UInt8) := (host.rdropWhile (· = 46)).splitOn 46

/-- `buf[i]`. -/
def index (buf : List UInt8) (i : Nat) : Parse UInt8 :=
  match buf[i]? with
  | some b => .ok b
  | none => .error .panic

/-- `buf[start..end]`. -/
def slice (buf : List UInt8) (start stop : Nat) : Parse (List UInt8) :=
  if start ≤ stop ∧ stop ≤ buf.length then .ok ((buf.take stop).drop start) else .error .panic

/-- The number that octets spell. -/
def ofOctets (octets : List UInt8) : Nat := octets.foldl (fun n b => n * 256 + b.toNat) 0

/-- The address in the data of a record of the wanted type. -/
def address (wantType : UInt16) (rdata : List UInt8) : Option IpAddr :=
  if wantType = typeA ∧ rdata.length = 4 then some (.v4 (UInt32.ofNat (ofOctets rdata)))
  else if wantType = typeAaaa ∧ rdata.length = 16 then some (.v6 (ofOctets rdata))
  else none

/-- A name as it stands in a message: labels, and the end of the name or a pointer to the rest of it. -/
structure Name where
  labels : List (List UInt8)
  pointer : Option (Fin (2 ^ 14))
  short : ∀ label ∈ labels, 1 ≤ label.length ∧ label.length ≤ 63

def Name.render (n : Name) : List UInt8 :=
  n.labels.flatMap (fun label => UInt8.ofNat label.length :: label) ++
    match n.pointer with
    | none => [0]
    | some p => [UInt8.ofNat (0xC0 + p.val / 256), UInt8.ofNat (p.val % 256)]

structure Question where
  name : Name
  qtype : UInt16
  qclass : UInt16

def Question.render (q : Question) : List UInt8 := q.name.render ++ beBytes16 q.qtype ++ beBytes16 q.qclass

structure Record where
  name : Name
  rtype : UInt16
  rclass : UInt16
  ttl : UInt32
  rdata : List UInt8
  short : rdata.length < 2 ^ 16

def Record.render (r : Record) : List UInt8 :=
  r.name.render ++ beBytes16 r.rtype ++ beBytes16 r.rclass ++ beBytes32 r.ttl ++ beBytes16 (UInt16.ofNat r.rdata.length) ++ r.rdata

/-- A response without an error. What follows the answers may be anything. -/
structure Response where
  id : UInt16
  flags : UInt16
  questions : List Question
  answers : List Record
  counts : UInt16 × UInt16
  rest : List UInt8
  noError : flags &&& 0x000F = 0
  fewQuestions : questions.length < 2 ^ 16
  fewAnswers : answers.length < 2 ^ 16

def Response.render (m : Response) : List UInt8 :=
  beBytes16 m.id ++ beBytes16 m.flags ++ beBytes16 (UInt16.ofNat m.questions.length) ++ beBytes16 (UInt16.ofNat m.answers.length) ++
      beBytes16 m.counts.1 ++ beBytes16 m.counts.2 ++
    m.questions.flatMap Question.render ++ m.answers.flatMap Record.render ++ m.rest

end Doh

end Risuko
