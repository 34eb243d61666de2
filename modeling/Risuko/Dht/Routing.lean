import Risuko.Id20
import Risuko.Lib.Selection
import Risuko.Net

/-!
# Nodes of the DHT

`dht/node_id.rs` and the `RoutingTable` of `dht.rs`. A node id starts with a checksum of the address of the node, so that a host cannot choose
where in the table it stands. `derive_node_id` makes such an id, `node_id_valid` checks one, and `plan_node_id` decides what to do about our
own id when the address that others see us at has been settled. Random bytes are arguments. Times are in nanoseconds.
-/

namespace Risuko

def polynomial : UInt32 := 0x82F63B78

/-- An entry of the table that `build_table` fills. -/
def tableEntry (index : UInt32) : UInt32 :=
  Nat.iterate (fun crc => if crc &&& 1 = 1 then (crc >>> 1) ^^^ polynomial else crc >>> 1) 8 index

def crc32c (data : List UInt8) : UInt32 :=
  ~~~data.foldl (fun crc byte => (crc >>> 8) ^^^ tableEntry (crc.toUInt8 ^^^ byte).toUInt32) 0xFFFFFFFF

def ipv4Mask : UInt32 := 0x030f3fff
def ipv6Mask : UInt64 := 0x0103070f1f3f7fff

/-- `to_be_bytes` of a 32-bit number. -/
def toBeBytes32 (n : UInt32) : List UInt8 := [(n >>> 24).toUInt8, (n >>> 16).toUInt8, (n >>> 8).toUInt8, n.toUInt8]

/-- `to_be_bytes` of a 64-bit number. -/
def toBeBytes64 (n : UInt64) : List UInt8 := toBeBytes32 (n >>> 32).toUInt32 ++ toBeBytes32 n.toUInt32

def nodeIdCrc (ip : IpAddr) (rand : UInt8) : UInt32 :=
  let r := rand &&& 7
  match ip.toCanonical with
  | .v4 ip => crc32c (toBeBytes32 ((ip &&& ipv4Mask) ||| (r.toUInt32 <<< 29)))
  | .v6 ip => crc32c (toBeBytes64 ((UInt64.ofNat (ip / 2 ^ 64) &&& ipv6Mask) ||| (r.toUInt64 <<< 61)))

def exemptFromNodeIdCheck (ip : IpAddr) : Bool := ip.toCanonical.isLan

namespace Id20

/-- A byte of an id. -/
def byte (id : Id20) (i : Fin 20) : UInt8 := id.bytes.get (i.cast id.length_eq.symm)

/-- `derive_node_id`. -/
def deriveNodeId (ip : IpAddr) (entropy : Id20) : Id20 :=
  let crc := nodeIdCrc ip (entropy.byte 19)
  { bytes := (crc >>> 24).toUInt8 :: (crc >>> 16).toUInt8 :: (((crc >>> 8).toUInt8 &&& 0xf8) ||| (entropy.byte 2 &&& 0x07))
      :: entropy.bytes.drop 3
    length_eq := by simp [entropy.length_eq] }

/-- `generate_node_id`. -/
def generateNodeId (ip : IpAddr) (random : Id20) : Id20 := deriveNodeId ip random

/-- `node_id_valid`. -/
def nodeIdValid (id : Id20) (ip : IpAddr) : Bool :=
  if exemptFromNodeIdCheck ip then true
  else
    let expected := nodeIdCrc ip (id.byte 19)
    id.byte 0 == (expected >>> 24).toUInt8 && id.byte 1 == (expected >>> 16).toUInt8
      && (id.byte 2 &&& (0xf8 : UInt8)) == ((expected >>> 8).toUInt8 &&& (0xf8 : UInt8))

end Id20

inductive IdPlan
  | keep
  | replace (id : Id20)
  | wait (remaining : Nat)

/-- `plan_node_id`. -/
def planNodeId (current : Id20) (elected : Option IpAddr) (proxied : Bool) (lastChange : Option Nat) (interval now : Nat)
    (random : Id20) : IdPlan :=
  match elected with
  | none => .keep
  | some elected =>
    if proxied || current.nodeIdValid elected then .keep
    else
      match (lastChange.map fun at_ => interval - (now - at_)).filter (· ≠ 0) with
      | some remaining => .wait remaining
      | none => .replace (Id20.generateNodeId elected random)

/-!
## The routing table

`RoutingTable` of `dht.rs`. The nodes are kept in buckets; a bucket holds those whose distance to our own id starts with the bits of its
prefix, and splits in two when it is full and our own id is in it. Readings of the clock and random bytes are arguments. The loop
of `insert_node` has fuel, and `none` stands for a loop that has not ended.
-/

def bucketSize : Nat := 8
def maxQueryFailures : UInt8 := 2

/-- In nanoseconds, as all times here. -/
def routingStale : Nat := 15 * 60 * 1000000000

inductive RoutingLiveness
  | good
  | questionable
  | bad
  deriving DecidableEq

structure RoutingNode where
  id : Id20
  addr : SocketAddr
  lastSeen : Nat
  liveness : RoutingLiveness
  failures : UInt8
  verified : Bool

/-- `path` is the source's `prefix`. -/
structure RoutingBucket where
  path : Id20
  prefixLen : Nat
  nodes : List RoutingNode
  lastChanged : Nat

namespace RoutingBucket

/-- `root`, made at time `now`. -/
def root (now : Nat) : RoutingBucket where
  path := .zero
  prefixLen := 0
  nodes := []
  lastChanged := now

def «matches» (b : RoutingBucket) (distance : Id20) : Bool :=
  (List.range b.prefixLen).all fun i => distance.bit i = b.path.bit i

def containsOurs (b : RoutingBucket) : Bool := (List.range b.prefixLen).all fun i => b.path.bit i = false

def child (b : RoutingBucket) (bit : Bool) : RoutingBucket where
  path := b.path.setBit b.prefixLen bit
  prefixLen := b.prefixLen + 1
  nodes := []
  lastChanged := b.lastChanged

end RoutingBucket

structure RoutingTable where
  ourId : Id20
  idChanged : Option Nat
  buckets : List RoutingBucket

namespace RoutingTable

/-- `new`, at time `now`. -/
def new (ourId : Id20) (now : Nat) : RoutingTable where
  ourId := ourId
  idChanged := none
  buckets := [RoutingBucket.root now]

/-- All nodes, bucket by bucket. -/
def nodes (t : RoutingTable) : List RoutingNode := t.buckets.flatMap (·.nodes)

def bucketIndex (t : RoutingTable) (distance : Id20) : Option (Fin t.buckets.length) :=
  t.buckets.findFinIdx? fun bucket => bucket.matches distance

def splitBucket (t : RoutingTable) (index : Fin t.buckets.length) : RoutingTable :=
  let bucket := t.buckets.get index
  let (zero, one) := bucket.nodes.partition fun node => (t.ourId.distance node.id).bit bucket.prefixLen = false
  { t with
    buckets := t.buckets.take index
      ++ { bucket.child false with nodes := zero } :: { bucket.child true with nodes := one }
      :: t.buckets.drop (index + 1) }

/-! ### Adding nodes -/

/-- `oldest_questionable`: the index of the first of the questionable nodes that were seen longest ago. -/
def oldestQuestionable (nodes : List RoutingNode) (unverifiedOnly : Bool) : Option Nat :=
  let questionable := nodes.zipIdx.filter fun (node, _) => node.liveness = .questionable && !(unverifiedOnly && node.verified)
  (questionable.argmin fun (node, _) => node.lastSeen).map (·.2)

/-- `replace_idx`: the node of a full bucket that `fresh` takes the place of. -/
def replaceIdx (nodes : List RoutingNode) (fresh : RoutingNode) : Option Nat :=
  (nodes.findIdx? fun node => node.liveness = .bad)
    |>.or (if fresh.verified then oldestQuestionable nodes true else none)
    |>.or (if fresh.liveness = .good then oldestQuestionable nodes false else none)

/-- The loop of `insert_node`. -/
def insertLoop (fresh : RoutingNode) (now : Nat) : Nat → RoutingTable → Option RoutingTable
  | 0, _ => none
  | fuel + 1, t =>
    match t.bucketIndex (t.ourId.distance fresh.id) with
    | none => some t
    | some idx =>
      let bucket := t.buckets.get idx
      if bucket.nodes.length < bucketSize then
        some { t with buckets := t.buckets.set idx { bucket with nodes := bucket.nodes ++ [fresh], lastChanged := now } }
      else if bucket.containsOurs && bucket.prefixLen < 160 then insertLoop fresh now fuel (t.splitBucket idx)
      else
        match replaceIdx bucket.nodes fresh with
        | some i => some { t with buckets := t.buckets.set idx { bucket with nodes := bucket.nodes.set i fresh, lastChanged := now } }
        | none => some t

def insertNode (t : RoutingTable) (fresh : RoutingNode) (now : Nat) : Option RoutingTable :=
  if t.ourId.distance fresh.id = .zero then some t else insertLoop fresh now 161 t

/-- The node stands in the way of a new one at the same host. -/
def conflicts (id : Id20) (addr : SocketAddr) (node : RoutingNode) : Bool :=
  !(node.id = id || node.addr.ip.hostPrefix ≠ addr.ip.hostPrefix)

/-- The loop of `make_room_for_host` over the nodes with their places: the last conflict found, `none` if one is not replaceable. -/
def findConflict (id : Id20) (addr : SocketAddr) (liveness : RoutingLiveness) :
    List ((Nat × Nat) × RoutingNode) → Option (Nat × Nat) → Option (Option (Nat × Nat))
  | [], conflict => some conflict
  | (place, node) :: rest, conflict =>
    if !conflicts id addr node then findConflict id addr liveness rest conflict
    else if node.liveness = .bad || (liveness = .good && (node.liveness = .questionable || node.addr = addr)) then
      findConflict id addr liveness rest (some place)
    else none

/-- The nodes with their places: the index of the bucket, and the index in it. -/
def places (buckets : List RoutingBucket) : List ((Nat × Nat) × RoutingNode) :=
  buckets.zipIdx.flatMap fun (bucket, i) => bucket.nodes.zipIdx.map fun (node, j) => ((i, j), node)

/-- `make_room_for_host`: `none` when it returns false. -/
def makeRoomForHost (t : RoutingTable) (id : Id20) (addr : SocketAddr) (liveness : RoutingLiveness) : Option RoutingTable :=
  (findConflict id addr liveness (places t.buckets) none).map fun conflict =>
    match conflict with
    | some (i, j) => { t with buckets := t.buckets.modify i fun bucket => { bucket with nodes := bucket.nodes.eraseIdx j } }
    | none => t

/-- The first part of `add_with_liveness`: what happens to a node that is known already, and whether the call goes on. -/
def meetKnown (t : RoutingTable) (id : Id20) (addr : SocketAddr) (liveness : RoutingLiveness) (now : Nat) : RoutingTable × Bool :=
  match t.bucketIndex (t.ourId.distance id) with
  | none => (t, true)
  | some idx =>
    let bucket := t.buckets.get idx
    match bucket.nodes.findFinIdx? fun n => n.id = id with
    | none => (t, true)
    | some position =>
      let existing := bucket.nodes.get position
      if liveness ≠ .good then (t, false)
      else if existing.addr.ip.hostPrefix = addr.ip.hostPrefix then
        let existing := { existing with addr := addr, lastSeen := now, liveness := .good, failures := 0 }
        ({ t with buckets := t.buckets.set idx { bucket with nodes := bucket.nodes.set position existing, lastChanged := now } }, false)
      else if existing.liveness ≠ .bad then (t, false)
      else ({ t with buckets := t.buckets.set idx { bucket with nodes := bucket.nodes.eraseIdx position } }, true)

/-- `add_with_liveness`, with the clock read at `now` and again by `insert_node`. -/
def addWithLiveness (t : RoutingTable) (id : Id20) (addr : SocketAddr) (liveness : RoutingLiveness) (now later : Nat) :
    Option RoutingTable :=
  if t.ourId.distance id = .zero then some t
  else
    match t.meetKnown id addr liveness now with
    | (t, false) => some t
    | (t, true) =>
      match t.makeRoomForHost id addr liveness with
      | none => some t
      | some t =>
        t.insertNode
          { id := id, addr := addr, lastSeen := now, liveness := liveness, failures := 0, verified := id.nodeIdValid addr.ip } later

def add (t : RoutingTable) (id : Id20) (addr : SocketAddr) (now later : Nat) : Option RoutingTable :=
  t.addWithLiveness id addr .good now later

/-! ### Our own id -/

/-- The order in which `set_node_id` puts the nodes back. -/
def keptBefore (a b : RoutingNode) : Bool :=
  let key := fun node : RoutingNode => toLex ((node.liveness ≠ .good : Bool), toLex ((!node.verified : Bool), OrderDual.toDual node.lastSeen))
  key a ≤ key b

/-- `set_node_id`. The clock is read anew for the root bucket and at each insertion. -/
def setNodeId (t : RoutingTable) (ourId : Id20) (now later : Nat) (clock : RoutingNode → Nat) : Option RoutingTable :=
  let nodes := (t.nodes.filter fun node => node.liveness ≠ .bad).mergeSort keptBefore
  nodes.foldlM (fun t node => t.insertNode node (clock node))
    { ourId := ourId, idChanged := some now, buckets := [RoutingBucket.root later] }

/-- `follow_external_address`. -/
def followExternalAddress (t : RoutingTable) (elected : Option IpAddr) (proxied : Bool) (interval now later : Nat) (random : Id20)
    (clock : RoutingNode → Nat) : Option RoutingTable :=
  match planNodeId t.ourId elected proxied t.idChanged interval now random with
  | .replace id => t.setNodeId id now later clock
  | .keep | .wait _ => some t

/-! ### Stale and failing nodes -/

/-- The node that `record_failure` strikes, in the first bucket that has it. -/
def failNodes (addr : SocketAddr) : List RoutingNode → Option (List RoutingNode)
  | [] => none
  | node :: rest =>
    if node.addr ≠ addr || node.liveness = .bad then (failNodes addr rest).map (node :: ·)
    else
      let failures := if node.failures = 255 then 255 else node.failures + 1
      let liveness := if maxQueryFailures ≤ failures then .bad else .questionable
      some ({ node with failures := failures, liveness := liveness } :: rest)

/-- The loop of `record_failure`. -/
def failBuckets (addr : SocketAddr) : List RoutingBucket → List RoutingBucket
  | [] => []
  | bucket :: rest =>
    match failNodes addr bucket.nodes with
    | some nodes => { bucket with nodes := nodes } :: rest
    | none => bucket :: failBuckets addr rest

def recordFailure (t : RoutingTable) (addr : SocketAddr) : RoutingTable := { t with buckets := failBuckets addr t.buckets }

/-- One node in `refresh_stale`, with the nodes to query so far. -/
def refreshNode (now limit : Nat) (node : RoutingNode) (out : List (Id20 × SocketAddr)) : RoutingNode × List (Id20 × SocketAddr) :=
  -- Once there are enough, the loops end: nothing changes any more.
  if limit ≤ out.length then (node, out)
  else if node.liveness = .bad then (node, out)
  else if routingStale ≤ now - node.lastSeen then
    let liveness :=
      match node.liveness with
      | .good => .questionable
      | .questionable => .bad
      | .bad => .bad
    ({ node with liveness := liveness, lastSeen := now }, out ++ [(node.id, node.addr)])
  else (node, out)

def refreshNodes (now limit : Nat) : List RoutingNode → List (Id20 × SocketAddr) → List RoutingNode × List (Id20 × SocketAddr)
  | [], out => ([], out)
  | node :: rest, out =>
    let (node, out) := refreshNode now limit node out
    let (rest, out) := refreshNodes now limit rest out
    (node :: rest, out)

def refreshBuckets (now limit : Nat) : List RoutingBucket → List (Id20 × SocketAddr) → List RoutingBucket × List (Id20 × SocketAddr)
  | [], out => ([], out)
  | bucket :: rest, out =>
    let (nodes, out) := refreshNodes now limit bucket.nodes out
    let (rest, out) := refreshBuckets now limit rest out
    ({ bucket with nodes := nodes } :: rest, out)

/-- `refresh_stale`: the nodes to query. -/
def refreshStale (t : RoutingTable) (now limit : Nat) : RoutingTable × List (Id20 × SocketAddr) :=
  let (buckets, out) := refreshBuckets now limit t.buckets []
  ({ t with buckets := buckets }, out)

/-- `stale_refresh_target`: an id to look up in the bucket that has not changed for longest. -/
def staleRefreshTarget (t : RoutingTable) (now : Nat) (random : Id20) : RoutingTable × Option Id20 :=
  let stale := t.buckets.zipIdx.filter fun (bucket, _) => routingStale ≤ now - bucket.lastChanged
  match stale.argmin fun (bucket, _) => bucket.lastChanged with
  | none => (t, none)
  | some (bucket, idx) =>
    let t := { t with buckets := t.buckets.set idx { bucket with lastChanged := now } }
    if bucket.containsOurs then (t, some t.ourId)
    else
      let distance := (List.range bucket.prefixLen).foldl (fun distance bit => distance.setBit bit (bucket.path.bit bit)) random
      (t, some (t.ourId.distance distance))

/-! ### Lookups -/

/-- The order of `closest_matching`. -/
def byDistance (e : Id20 × Id20 × SocketAddr) : List UInt8 := e.1.bytes

/-- `closest_matching`. `std` stands for `select_nth_unstable_by_key` and `sort_unstable_by_key` of the standard library. -/
def closestMatching (std : UnstableSort byDistance) (t : RoutingTable) (target : Id20) (n : Nat)
    (keep : RoutingNode → Bool) : List (Id20 × SocketAddr) :=
  let all := (t.nodes.filter keep).map fun node => (node.id.distance target, node.id, node.addr)
  let all := if n < all.length then (std.selectNth all n).take n else all
  (std.sort all).map (·.2)

def closestNodes (std : UnstableSort byDistance) (t : RoutingTable) (target : Id20) (n : Nat) : List (Id20 × SocketAddr) :=
  t.closestMatching std target n fun node => node.liveness ≠ .bad

/-! ### Calls -/

/-- The calls that change a table. -/
inductive Call
  | add (id : Id20) (addr : SocketAddr) (now later : Nat)
  | addWithLiveness (id : Id20) (addr : SocketAddr) (liveness : RoutingLiveness) (now later : Nat)
  | recordFailure (addr : SocketAddr)
  | refreshStale (now limit : Nat)
  | staleRefreshTarget (now : Nat) (random : Id20)
  | setNodeId (ourId : Id20) (now later : Nat) (clock : RoutingNode → Nat)
  | followExternalAddress (elected : Option IpAddr) (proxied : Bool) (interval now later : Nat) (random : Id20)
    (clock : RoutingNode → Nat)

/-- The table after a call, `none` if the call does not end. -/
def perform (t : RoutingTable) : Call → Option RoutingTable
  | .add id addr now later => t.add id addr now later
  | .addWithLiveness id addr liveness now later => t.addWithLiveness id addr liveness now later
  | .recordFailure addr => some (t.recordFailure addr)
  | .refreshStale now limit => some (t.refreshStale now limit).1
  | .staleRefreshTarget now random => some (t.staleRefreshTarget now random).1
  | .setNodeId ourId now later clock => t.setNodeId ourId now later clock
  | .followExternalAddress elected proxied interval now later random clock =>
    t.followExternalAddress elected proxied interval now later random clock

end RoutingTable

end Risuko
