import Risuko.Lib.Reach

/-!
# The Kad routing table

`kad/routing.rs`. The 128 buckets and their replacement lists are functions of the index, and `by_id` is one of the id. Readings of the clock are
arguments, and the counter of refresh generations does not come to `2 ^ 64`.
-/

namespace Risuko

namespace Kad

/-- `ID_BITS`. -/
def idBits : ℕ := 128

/-- `K`. -/
def bucketSize : ℕ := 10

/-- `MIN_SUPPORTED_KAD_VERSION`. -/
def minSupportedKadVersion : UInt8 := 2

/-- `MAX_LOOKUP_QUERIES`. -/
def maxLookupQueries : ℕ := 64

/-! ## Ids -/

structure KadId where
  bytes : List UInt8
  length_eq : bytes.length = 16
  deriving DecidableEq

namespace KadId

theorem ext {a b : KadId} (h : a.bytes = b.bytes) : a = b := by
  cases a
  cases b
  cases h
  rfl

/-- `NodeId::ZERO`. -/
def zero : KadId := ⟨List.replicate 16 0, rfl⟩

/-- `xor_distance`. -/
def xorDistance (left right : KadId) : KadId where
  bytes := List.zipWith (· ^^^ ·) left.bytes right.bytes
  length_eq := by rw [List.length_zipWith, left.length_eq, right.length_eq, Nat.min_self]

/-- `compare_distance`: distances are compared byte by byte. -/
def compareDistance (target left right : KadId) : Ordering := compare (target.xorDistance left).bytes (target.xorDistance right).bytes

/-- `u8::leading_zeros`. -/
def leadingZeros (b : UInt8) : ℕ := if b = 0 then 8 else 7 - Nat.log2 b.toNat

/-- `bucket_index`. -/
def bucketIndex (localId remote : KadId) : Option ℕ :=
  let distance := (localId.xorDistance remote).bytes
  (distance.findIdx? (· ≠ 0)).map fun firstNonzero => firstNonzero * 8 + leadingZeros (distance.getD firstNonzero 0)

end KadId

/-! ## Contacts -/

/-- An IPv4 address, by its octets. -/
structure Ipv4Addr where
  a : UInt8
  b : UInt8
  c : UInt8
  d : UInt8
  deriving DecidableEq

namespace Ipv4Addr

def isSpecialPurposeRange : Ipv4Addr → Bool
  | ⟨a, b, c, _⟩ =>
    (a = 192 && b = 0 && c = 0) || (a = 192 && b = 0 && c = 2) || (a = 192 && b = 31 && c = 196) || (a = 192 && b = 52 && c = 193) ||
      (a = 192 && b = 88 && c = 99) || (a = 192 && b = 175 && c = 48) || (a = 198 && b = 18) || (a = 198 && b = 19) ||
      (a = 198 && b = 51 && c = 100) || (a = 203 && b = 0 && c = 113)

def isUnspecified (ip : Ipv4Addr) : Bool := ip = ⟨0, 0, 0, 0⟩

/-- `is_public_ipv4`. -/
def isPublicIpv4 (ip : Ipv4Addr) : Bool :=
  let isLoopback := decide (ip.a = 127)
  let isPrivate := decide (ip.a = 10) || (ip.a = 172 && 16 ≤ ip.b && ip.b ≤ 31) || (ip.a = 192 && ip.b = 168)
  let isLinkLocal := ip.a = 169 && ip.b = 254
  let isBroadcast := decide (ip = ⟨255, 255, 255, 255⟩)
  let isDocumentation := (ip.a = 192 && ip.b = 0 && ip.c = 2) || (ip.a = 198 && ip.b = 51 && ip.c = 100) || (ip.a = 203 && ip.b = 0 && ip.c = 113)
  let isMulticast := 224 ≤ ip.a && ip.a ≤ 239
  ip.a ≠ 0 && !ip.isUnspecified && !isLoopback && !isPrivate && !isLinkLocal && !isBroadcast && !isDocumentation && !isMulticast &&
    !ip.isSpecialPurposeRange && !(ip.a = 100 && 64 ≤ ip.b && ip.b ≤ 127) && ip.a < 240

end Ipv4Addr

structure SocketAddrV4 where
  ip : Ipv4Addr
  port : UInt16
  deriving DecidableEq

structure Contact where
  id : KadId
  addr : SocketAddrV4
  tcpPort : UInt16
  version : UInt8
  lastSeen : ℕ
  lastVerified : ℕ
  refreshGeneration : ℕ
  deriving DecidableEq

namespace Contact

def isValidForRouting (c : Contact) (localId : KadId) : Bool :=
  c.id ≠ KadId.zero && c.id ≠ localId && minSupportedKadVersion ≤ c.version && c.addr.ip.isPublicIpv4 && c.addr.port ≠ 0

/-- `mark_seen`, at a time and with a new generation. -/
def markSeen (c : Contact) (verified : Bool) (now generation : ℕ) : Contact :=
  { c with lastSeen := now, lastVerified := if verified then now else c.lastVerified, refreshGeneration := generation }

end Contact

inductive InsertResult where
  | inserted
  | updated
  | rejected
  | selfContact
  deriving DecidableEq

/-! ## The table -/

structure RoutingTable where
  localId : KadId
  buckets : ℕ → List Contact
  replacements : ℕ → List Contact
  byId : KadId → Option ℕ

/-- The table, and `NEXT_REFRESH_GENERATION`. -/
structure Routing where
  table : RoutingTable
  next : ℕ

namespace RoutingTable

def new (localId : KadId) : RoutingTable := ⟨localId, fun _ => [], fun _ => [], fun _ => none⟩

def contacts (t : RoutingTable) : List Contact := (List.range idBits).flatMap t.buckets

def get (t : RoutingTable) (id : KadId) : Option Contact := (t.byId id).bind fun bucket => (t.buckets bucket).find? (·.id = id)

def setBucket (t : RoutingTable) (index : ℕ) (bucket : List Contact) : RoutingTable := { t with buckets := Function.update t.buckets index bucket }

def setReplacements (t : RoutingTable) (index : ℕ) (replacements : List Contact) : RoutingTable :=
  { t with replacements := Function.update t.replacements index replacements }

/-- An entry of `by_id` is set or removed. -/
def setIndex (t : RoutingTable) (id : KadId) (index : Option ℕ) : RoutingTable := { t with byId := Function.update t.byId id index }

def promoteReplacement (t : RoutingTable) (index : ℕ) : RoutingTable :=
  match (t.replacements index).getLast? with
  | none => t
  | some contact =>
    ((t.setReplacements index (t.replacements index).dropLast).setBucket index (t.buckets index ++ [contact])).setIndex contact.id (some index)

def remove (t : RoutingTable) (id : KadId) : Option Contact × RoutingTable :=
  match t.byId id with
  | none => (none, t)
  | some index =>
    let t := t.setIndex id none
    match (t.buckets index).findIdx? (·.id = id) with
    | none => (none, t)
    | some position => ((t.buckets index)[position]?, (t.setBucket index ((t.buckets index).eraseIdx position)).promoteReplacement index)

def removeIfUnchanged (t : RoutingTable) (expected : Contact) : Option Contact × RoutingTable :=
  match t.get expected.id with
  | none => (none, t)
  | some current =>
    if current.addr ≠ expected.addr ∨ current.lastSeen ≠ expected.lastSeen ∨ current.lastVerified ≠ expected.lastVerified ∨
        current.refreshGeneration ≠ expected.refreshGeneration then (none, t)
    else t.remove expected.id

def markFailed (t : RoutingTable) (id : KadId) : RoutingTable :=
  match t.byId id with
  | none => t
  | some index =>
    match (t.buckets index).findIdx? (·.id = id) with
    | none => t
    | some position => t.setBucket index ((t.buckets index)[position]?.toList ++ (t.buckets index).eraseIdx position)

/-- Contacts by their distance. -/
def sortByDistance (target : KadId) (contacts : List Contact) : List Contact :=
  contacts.mergeSort fun left right => (target.compareDistance left.id right.id).isLE

def closest (t : RoutingTable) (target : KadId) (limit : ℕ) : List Contact := (sortByDistance target t.contacts).take (min limit maxLookupQueries)

end RoutingTable

namespace Routing

/-- `next_refresh_generation`. -/
def nextRefreshGeneration (s : Routing) : ℕ × Routing := (if s.next = 0 then 1 else s.next, { s with next := s.next + 1 })

def markAlive (s : Routing) (id : KadId) (now : ℕ) : Bool × Routing :=
  match s.table.byId id with
  | none => (false, s)
  | some index =>
    match (s.table.buckets index).findIdx? (·.id = id) with
    | none => (false, { s with table := s.table.setIndex id none })
    | some position =>
      let (generation, s) := s.nextRefreshGeneration
      (true,
        { s with
          table := s.table.setBucket index ((s.table.buckets index).eraseIdx position ++
            ((s.table.buckets index)[position]?.map (·.markSeen true now generation)).toList) })

/-- What `insert_checked` makes of a contact that is in a bucket. -/
def refreshed (existing contact : Contact) (now generation : ℕ) : Contact :=
  { existing with addr := contact.addr, tcpPort := contact.tcpPort, version := max existing.version contact.version }.markSeen true now generation

/-- The end of `insert_checked`: a contact goes into a bucket, or waits. -/
def place (s : Routing) (contact : Contact) (index : ℕ) : InsertResult × Routing :=
  if (s.table.buckets index).length < bucketSize then
    (.inserted, { s with table := (s.table.setBucket index (s.table.buckets index ++ [contact])).setIndex contact.id (some index) })
  else
    let replacements := s.table.replacements index
    match replacements.findIdx? (·.id = contact.id) with
    | some position => (.updated, { s with table := s.table.setReplacements index (replacements.set position contact) })
    | none =>
      let replacements := if bucketSize ≤ replacements.length then replacements.drop 1 else replacements
      (.rejected, { s with table := s.table.setReplacements index (replacements ++ [contact]) })

/-- `insert_checked`, of a contact that is in no bucket. -/
def insertNew (s : Routing) (contact : Contact) (index : ℕ) : InsertResult × Routing :=
  if contact.refreshGeneration = 0 then
    let (generation, s) := s.nextRefreshGeneration
    s.place { contact with refreshGeneration := generation } index
  else s.place contact index

/-- `insert`. -/
def insert (s : Routing) (contact : Contact) (now : ℕ) : InsertResult × Routing :=
  if contact.id = s.table.localId then (.selfContact, s)
  else
    match s.table.localId.bucketIndex contact.id with
    | none => (.selfContact, s)
    | some index =>
      if contact.isValidForRouting s.table.localId = false then (.rejected, s)
      else
        match s.table.byId contact.id with
        | none => s.insertNew contact index
        | some existingBucket =>
          let bucket := s.table.buckets existingBucket
          match bucket.findIdx? (·.id = contact.id) with
          | some position =>
            let (generation, s) := s.nextRefreshGeneration
            (.updated,
              { s with
                table := s.table.setBucket existingBucket (bucket.eraseIdx position ++
                  (bucket[position]?.map fun existing => refreshed existing contact now generation).toList) })
          | none => { s with table := s.table.setIndex contact.id none }.insertNew contact index

end Routing

/-! ## Calls -/

inductive Call where
  | insert (contact : Contact) (now : ℕ)
  | markAlive (id : KadId) (now : ℕ)
  | markFailed (id : KadId)
  | remove (id : KadId)
  | removeIfUnchanged (expected : Contact)
  /-- A contact is made elsewhere, and takes a generation. -/
  | takesGeneration

def Routing.call (s : Routing) : Call → Routing
  | .insert contact now => (s.insert contact now).2
  | .markAlive id now => (s.markAlive id now).2
  | .markFailed id => { s with table := s.table.markFailed id }
  | .remove id => { s with table := (s.table.remove id).2 }
  | .removeIfUnchanged expected => { s with table := (s.table.removeIfUnchanged expected).2 }
  | .takesGeneration => s.nextRefreshGeneration.2

/-! ## Lookups -/

/-- `LookupTracker`. -/
structure LookupTracker where
  queried : List KadId
  maxQueries : ℕ

/-- `mark_queried`. -/
def LookupTracker.markQueried (t : LookupTracker) (id : KadId) : Bool × LookupTracker :=
  if t.maxQueries ≤ t.queried.length ∨ id ∈ t.queried then (false, t) else (true, { t with queried := id :: t.queried })

end Kad

end Risuko
