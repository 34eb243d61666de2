import Risuko.Kad.Wire

/-!
# The source lookup

`Shortlist` and `search_sources` of `kad/mod.rs`, from the first contacts on, while the lookup is neither cancelled nor past its deadline. The
requests in flight are a list, of which any one may be answered next. What source packets deliver, and what is done to the routing table, is left out.
The ghost fields `asked`, `answered`, `failed` and `sourced` tell which nodes have got which query and what came of it, and `replies` counts.
-/

namespace Risuko

namespace Kad

/-- `MAX_SHORTLIST`. -/
def maxShortlist : ℕ := 256

/-- `ALPHA`. -/
def maxAlpha : ℕ := 3

/-- `MAX_LOOKUP_SOURCES`. -/
def maxLookupSources : ℕ := 300

/-- `MAX_SOURCE_QUERIES`. -/
def maxSourceQueries : ℕ := 32

/-- `MIN_SOURCE_SEARCH_KAD_VERSION`. -/
def minSourceSearchKadVersion : UInt8 := 3

structure LookupConfig where
  alpha : ℕ
  maxQueries : ℕ
  maxSources : ℕ

namespace LookupConfig

def bounded (config : LookupConfig) : LookupConfig where
  alpha := max 1 (min config.alpha maxAlpha)
  maxQueries := max 1 (min config.maxQueries maxLookupQueries)
  maxSources := max 1 (min config.maxSources maxLookupSources)

/-- `source_limit`. -/
def sourceLimit (config : LookupConfig) : ℕ := min config.maxSources maxSourceQueries

end LookupConfig

/-! ## The shortlist -/

inductive NodeState where
  | unqueried
  | inFlight
  | responded
  | failed
  deriving DecidableEq

structure ShortlistEntry where
  contact : Contact
  state : NodeState
  sourceSent : Bool

/-- Of the contacts in `known` the code keeps the ids. -/
structure Shortlist where
  target : KadId
  entries : List ShortlistEntry
  known : List Contact

/-- The first of the window that has a property is changed: the window is the first so many entries that have not failed. -/
def changeFirst (p : ShortlistEntry → Bool) (f : ShortlistEntry → ShortlistEntry) : ℕ → List ShortlistEntry → Option (Contact × List ShortlistEntry)
  | 0, _ => none
  | _ + 1, [] => none
  | k + 1, e :: rest =>
    if e.state = .failed then (changeFirst p f (k + 1) rest).map fun r => (r.1, e :: r.2)
    else if p e then some (e.contact, f e :: rest)
    else (changeFirst p f k rest).map fun r => (r.1, e :: r.2)

/-- The first entry of an id is changed. -/
def changeEntry (id : KadId) (f : ShortlistEntry → ShortlistEntry) : List ShortlistEntry → List ShortlistEntry
  | [] => []
  | e :: rest => if e.contact.id = id then f e :: rest else e :: changeEntry id f rest

namespace Shortlist

def add (s : Shortlist) (contact : Contact) : Shortlist :=
  if s.known.any (·.id = contact.id) then s
  else
    { s with
      entries := ((s.entries ++ [ShortlistEntry.mk contact .unqueried false]).mergeSort fun left right =>
        (s.target.compareDistance left.contact.id right.contact.id).isLE).take maxShortlist
      known := contact :: s.known }

def new (target : KadId) (contacts : List Contact) : Shortlist := contacts.foldl add ⟨target, [], []⟩

def window (s : Shortlist) : List ShortlistEntry := (s.entries.filter fun e => e.state ≠ .failed).take bucketSize

def setState (s : Shortlist) (id : KadId) (state : NodeState) : Shortlist :=
  { s with entries := changeEntry id (fun e => { e with state := state }) s.entries }

def nextUnqueried (s : Shortlist) : Option (Contact × Shortlist) :=
  (changeFirst (fun e => e.state = .unqueried) (fun e => { e with state := .inFlight }) bucketSize s.entries).map fun r =>
    (r.1, { s with entries := r.2 })

def nextSourceCandidate (s : Shortlist) : Option (Contact × Shortlist) :=
  (changeFirst (fun e => e.state = .responded && !e.sourceSent && minSourceSearchKadVersion ≤ e.contact.version) (fun e => { e with sourceSent := true })
    bucketSize s.entries).map fun r => (r.1, { s with entries := r.2 })

end Shortlist

/-- `to_contact`, at a time and with a new generation. -/
def KadWireContact.toContact (contact : KadWireContact) (now generation : ℕ) : Contact :=
  ⟨contact.id, ⟨contact.ip, contact.udpPort⟩, contact.tcpPort, contact.version, now, now, generation⟩

/-- The contacts of a routing response, as far as they are valid. The clock and the counter of generations are read for each. -/
def Shortlist.hear (s : Shortlist) (localId : KadId) (clock : KadWireContact → ℕ × ℕ) (packet : KadPacket) : Shortlist :=
  if packet.opcode ≠ 0x29 then s
  else
    match parseRoutingResponseWithLimit 2 packet.payload with
    | .error _ => s
    | .ok response =>
      response.contacts.foldl (fun s wireContact =>
        let candidate := wireContact.toContact (clock wireContact).1 (clock wireContact).2
        if candidate.isValidForRouting localId then s.add candidate else s) s

/-! ## The lookup -/

/-- A request in flight. -/
inductive Query where
  | routing (id : KadId)
  | source
  deriving DecidableEq

structure Lookup where
  shortlist : Shortlist
  tracker : LookupTracker
  sourceQueries : ℕ
  routingInflight : ℕ
  sourceInflight : ℕ
  inflight : List Query
  asked : List KadId
  answered : List KadId
  failed : List KadId
  sourced : List KadId
  replies : ℕ

namespace Lookup

/-- The loop that sends routing requests, with so many places free. -/
def askRouting : ℕ → Lookup → Lookup
  | 0, s => s
  | free + 1, s =>
    match s.shortlist.nextUnqueried with
    | none => s
    | some (contact, shortlist) =>
      match s.tracker.markQueried contact.id with
      | (false, _) => { s with shortlist := shortlist.setState contact.id .unqueried }
      | (true, tracker) =>
        askRouting free
          { s with
            shortlist := shortlist
            tracker := tracker
            routingInflight := s.routingInflight + 1
            inflight := .routing contact.id :: s.inflight
            asked := contact.id :: s.asked }

/-- The loop that sends source requests, as many as there is room for. -/
def askSources : ℕ → Lookup → Lookup
  | 0, s => s
  | free + 1, s =>
    match s.shortlist.nextSourceCandidate with
    | none => s
    | some (contact, shortlist) =>
      askSources free
        { s with
          shortlist := shortlist
          sourceQueries := s.sourceQueries + 1
          sourceInflight := s.sourceInflight + 1
          inflight := .source :: s.inflight
          sourced := contact.id :: s.sourced }

/-- What a turn of the loop does before it waits. -/
def fill (s : Lookup) (config : LookupConfig) : Lookup :=
  let s := askRouting (config.alpha - s.routingInflight) s
  askSources (min (config.alpha - s.sourceInflight) (config.sourceLimit - s.sourceQueries)) s

/-- What a turn does with the reply to a request; without a packet the request has failed. -/
def receive (s : Lookup) (localId : KadId) (clock : KadWireContact → ℕ × ℕ) (query : Query) (packet : Option KadPacket) : Lookup :=
  let s := { s with inflight := s.inflight.erase query, replies := s.replies + 1 }
  match query with
  | .routing id =>
    let s := { s with routingInflight := s.routingInflight - 1 }
    match packet with
    | some packet => { s with shortlist := (s.shortlist.setState id .responded).hear localId clock packet, answered := id :: s.answered }
    | none => { s with shortlist := s.shortlist.setState id .failed, failed := id :: s.failed }
  | .source => { s with sourceInflight := s.sourceInflight - 1 }

/-- Before the loop. -/
def begin (config : LookupConfig) (target : KadId) (initial : List Contact) : Lookup where
  shortlist := .new target initial
  tracker := ⟨[], config.maxQueries⟩
  sourceQueries := 0
  routingInflight := 0
  sourceInflight := 0
  inflight := []
  asked := []
  answered := []
  failed := []
  sourced := []
  replies := 0

end Lookup

end Kad

end Risuko
