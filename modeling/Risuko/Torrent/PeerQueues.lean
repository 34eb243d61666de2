import Risuko.Id20
import Risuko.Lib.OrdMap
import Risuko.Net

/-!
# The queues of addresses to dial

`torrent.rs` keeps the addresses it may dial in four queues, and in `known_addrs` every address it has a peer, a dial or a queue
entry for. This is the code that fills the queues (`enqueue_peer_candidate`, `promote_holepunch_candidate`, `schedule_peer_retry`),
empties them (`drain_peer_backlog`) and brings them back to their normal form (`normalize_peer_queues`).

An instant is a number of nanoseconds. The clock, the blocklist and the room in the session's budget of connections are arguments.
-/

/-!
## Two connections to one peer

What `torrent.rs` does when a handshake completes: `resolve_duplicate`, the event of a dialled connection in `process_peer_event`,
and the command `AddInboundPeer` for a connection the other side dialled. A peer whose connection is aborted stays in `peers`
until its task has ended, and so counts against the cap until then. The queues of addresses that are still to be dialled are left
out, and with them the addresses a refused connection puts there.
-/

namespace Risuko

/-- What the handlers read of a peer. `aborted` says that its connection was told to end. -/
structure SwarmPeer where
  addr : SocketAddr
  listenAddr : Option SocketAddr
  outbound : Bool
  peerId : Option Id20
  aborted : Bool

/-- `Peer::connected`. -/
def SwarmPeer.connected (addr : SocketAddr) (outbound : Bool) (peerId : Option Id20) : SwarmPeer where
  addr := addr
  listenAddr := if outbound then some addr else none
  outbound := outbound
  peerId := peerId
  aborted := false

/-- The address is the peer's, or the one it listens on. -/
def SwarmPeer.at (p : SwarmPeer) (addr : SocketAddr) : Bool := p.addr = addr || p.listenAddr = some addr

/-- The connections of a torrent, with the settings that decide which ones it takes. -/
structure Swarm where
  ourPeerId : Id20
  peers : OrdMap Nat SwarmPeer
  pendingDials : OrdMap Nat SocketAddr
  knownAddrs : List SocketAddr
  inboundEvictions : List Nat
  nextPid : Nat
  maxPeers : Nat
  paused : Bool
  privateTorrent : Bool
  trackerAuthorized : List SocketAddr
  /-- The torrent is complete. -/
  complete : Bool

/-- What the handlers ask elsewhere: the blocklist, the punch that is under way to an address, and the ranking of the peers that
can be spared. -/
structure SwarmEnv where
  blocked : IpAddr → Bool
  isTarget : SocketAddr → Bool
  redundantPeers : OrdMap Nat SwarmPeer → Nat → List Nat

inductive DuplicateAction
  | keep
  | rejectNew
  | replaceOld (old : List Nat)
  deriving DecidableEq

/-- The connections that are replaced. -/
def DuplicateAction.old : DuplicateAction → List Nat
  | replaceOld old => old
  | _ => []

/-- `resolve_duplicate`. -/
def resolveDuplicate (peers : OrdMap Nat SwarmPeer) (ip : IpAddr) (peerId : Option Id20) (ourPeerId : Id20) (newOutbound : Bool) :
    DuplicateAction :=
  match peerId.filter (fun id => id ≠ ourPeerId) with
  | none => .keep
  | some id =>
    let existing := (peers.filter (fun _ p => p.peerId = some id ∧ p.addr.ip = ip)).entries
    if existing.isEmpty then .keep
    else
      let preferOutbound := decide (ourPeerId < id)
      if newOutbound = preferOutbound ∧ existing.all (fun e => e.2.outbound ≠ newOutbound) then
        .replaceOld (existing.map Prod.fst)
      else .rejectNew

namespace Swarm

/-- `abort_peer_io` for the connections that are replaced. -/
def abortPeers (s : Swarm) (old : List Nat) : Swarm :=
  { s with peers := s.peers.mapVal (fun pid p => if pid ∈ old then { p with aborted := true } else p) }

/-- A dialled connection that is not refused, once there is room for it. -/
def adoptDialled (s : Swarm) (pid : Nat) (addr : SocketAddr) (peerId : Id20) : Swarm :=
  if s.peers.size ≥ s.maxPeers then s else { s with peers := s.peers.insert pid (.connected addr true (some peerId)) }

/-- The address a dial goes to: the one it was started with, else the one in the registry. -/
def dialledAddr (s : Swarm) (pid : Nat) (registryAddr : SocketAddr) : SocketAddr := (s.pendingDials.get? pid).getD registryAddr

/-- The handshake of a dialled connection is complete: `Handshook` in `process_peer_event`, for a connection in the registry. -/
def handshook (env : SwarmEnv) (s : Swarm) (pid : Nat) (registryAddr : SocketAddr) (peerId : Id20) : Swarm :=
  if s.paused then { s with pendingDials := s.pendingDials.erase pid }
  else if s.peers.contains pid then s
  else
    let addr := s.dialledAddr pid registryAddr
    let s := { s with pendingDials := s.pendingDials.erase pid }
    if env.blocked addr.ip || (s.privateTorrent && !s.trackerAuthorized.contains addr) then
      { s with knownAddrs := s.knownAddrs.filter (fun a => a ≠ addr) }
    else
      match resolveDuplicate s.peers addr.ip (some peerId) s.ourPeerId true with
      | .keep => s.adoptDialled pid addr peerId
      | .rejectNew =>
        if s.peers.entries.any (fun e => e.2.at addr) then s
        else { s with knownAddrs := s.knownAddrs.filter (fun a => a ≠ addr) }
      | .replaceOld old => (s.abortPeers old).adoptDialled pid addr peerId

/-- `Handshook` in `process_peer_event`, for a connection that may have left the registry. -/
def handshookEvent (env : SwarmEnv) (s : Swarm) (pid : Nat) (registry : Option SocketAddr) (peerId : Id20) : Swarm :=
  match registry with
  | some registryAddr => s.handshook env pid registryAddr peerId
  | none => if s.paused then { s with pendingDials := s.pendingDials.erase pid } else s

/-- `inbound_addr_taken`. -/
def inboundAddrTaken (env : SwarmEnv) (s : Swarm) (addr : SocketAddr) : Bool :=
  if !s.knownAddrs.contains addr then false
  else if s.peers.entries.any (fun e => e.2.at addr) then true
  else !(env.isTarget addr || s.pendingDials.entries.any (fun e => e.2 = addr))

/-- `inbound_eviction_victim`. -/
def inboundEvictionVictim (env : SwarmEnv) (s : Swarm) (queued : List Nat) : Option Nat :=
  if !s.complete then none
  else (env.redundantPeers s.peers (queued.length + 1)).find? (fun pid => !queued.contains pid)

/-- The evictions of peers that are still there. -/
def liveEvictions (s : Swarm) : List Nat := s.inboundEvictions.filter (fun pid => s.peers.contains pid)

/-- `inbound_room`: whether the torrent is crowded, and who gives way then. -/
def inboundRoom (env : SwarmEnv) (s : Swarm) : Bool × Option Nat :=
  let crowded := decide (s.peers.size - s.liveEvictions.length ≥ s.maxPeers)
  (crowded, if crowded && !s.paused then s.inboundEvictionVictim env s.liveEvictions else none)

/-- There is room for an inbound connection, or a peer that gives way to it. -/
def hasRoom (env : SwarmEnv) (s : Swarm) : Bool := !(s.inboundRoom env).1 || (s.inboundRoom env).2.isSome

/-- `AddInboundPeer`. `reserve` says whether the budget of connections has one left, and `bound` whether the connection is still
there when it is adopted. -/
def addInboundPeer (env : SwarmEnv) (s : Swarm) (addr : SocketAddr) (peerId : Id20) (reserve bound : Bool) : Swarm :=
  let duplicate := resolveDuplicate s.peers addr.ip (some peerId) s.ourPeerId false
  if env.blocked addr.ip || duplicate = .rejectNew then s
  else if s.paused || s.inboundAddrTaken env addr || !isDialablePeerAddr addr then s
  else
    let room := s.inboundRoom env
    if !s.hasRoom env || !reserve then { s with inboundEvictions := s.liveEvictions }
    else
      let s' := { s.abortPeers duplicate.old with
        inboundEvictions := s.liveEvictions ++ room.2.toList
        knownAddrs := addr :: s.knownAddrs
        nextPid := s.nextPid + 1 }
      if bound then { s' with peers := s'.peers.insert s.nextPid (.connected addr false (some peerId)) } else s'

/-- The connection is there, and not told to end. -/
def Keeps (s : Swarm) (pid : Nat) : Prop := ∃ p, s.peers.get? pid = some p ∧ p.aborted = false

end Swarm

end Risuko

namespace Risuko

def maxPeerBacklog : Nat := 1024

def maxPendingDials : Nat := 48

def priorityDialReserve : Nat := 12

def maxDialRetries : Nat := 512

def maxDialFailures : Nat := 3

/-- Twenty seconds. -/
def dialRetryDelay : Nat := 20 * 10 ^ 9

/-- Eight seconds. -/
def usefulPeerRedialDelay : Nat := 8 * 10 ^ 9

/-- An address and the instant from which it may be dialled again. -/
abbrev TimedAddr := SocketAddr × Nat

/-- The four queues, the known addresses, and the peers and dials they are compared with. -/
structure PeerQueues where
  priorityBacklog : List SocketAddr
  peerBacklog : List SocketAddr
  dialRetries : List TimedAddr
  usefulRedials : List TimedAddr
  knownAddrs : Finset SocketAddr
  peers : OrdMap Nat SwarmPeer
  pendingDials : OrdMap Nat SocketAddr
  nextPid : Nat

/-! ## The normal form -/

/-- The variables the closure `accept` of `normalize_peer_queues` updates. -/
structure Accepted where
  seen : Finset SocketAddr
  queued : Nat

/-- One of the four loops of `normalize_peer_queues`, over a queue whose entries have an address: the entries that `accept` takes. -/
def keepAccepted {α : Type} (addrOf : α → SocketAddr) : List α → Accepted → List α × Accepted
  | [], a => ([], a)
  | x :: xs, a =>
    if maxPeerBacklog ≤ a.queued || !isDialablePeerAddr (addrOf x) || decide (addrOf x ∈ a.seen) then keepAccepted addrOf xs a
    else
      let r := keepAccepted addrOf xs { seen := insert (addrOf x) a.seen, queued := a.queued + 1 }
      (x :: r.1, r.2)

namespace PeerQueues

/-- The addresses of the peers and of the dials under way. -/
def activeAddrs (s : PeerQueues) : Finset SocketAddr :=
  (s.peers.entries.flatMap (fun e => e.2.addr :: e.2.listenAddr.toList) ++ s.pendingDials.entries.map Prod.snd).toFinset

/-- `normalize_peer_queues`. -/
def normalizePeerQueues (s : PeerQueues) (activeAddrs : Finset SocketAddr) : PeerQueues :=
  let priority := keepAccepted id s.priorityBacklog { seen := activeAddrs, queued := 0 }
  let redials := keepAccepted Prod.fst s.usefulRedials priority.2
  let retries := keepAccepted Prod.fst s.dialRetries redials.2
  let backlog := keepAccepted id s.peerBacklog retries.2
  { s with
    priorityBacklog := priority.1
    usefulRedials := redials.1
    dialRetries := retries.1
    peerBacklog := backlog.1
    knownAddrs := backlog.2.seen }

/-- `refresh_peer_queue_state`. -/
def refreshPeerQueueState (s : PeerQueues) : PeerQueues := s.normalizePeerQueues s.activeAddrs

/-- `unqueue_peer_addr`. -/
def unqueuePeerAddr (s : PeerQueues) (addr : SocketAddr) : PeerQueues :=
  { s with
    priorityBacklog := s.priorityBacklog.filter (fun queued => queued ≠ addr)
    peerBacklog := s.peerBacklog.filter (fun queued => queued ≠ addr)
    dialRetries := s.dialRetries.filter (fun e => e.1 ≠ addr)
    usefulRedials := s.usefulRedials.filter (fun e => e.1 ≠ addr) }

/-- The number of entries in the four queues. -/
def queued (s : PeerQueues) : Nat :=
  s.priorityBacklog.length + s.peerBacklog.length + s.dialRetries.length + s.usefulRedials.length

/-! ## Filling the queues -/

/-- The entry that makes room for another: the last one of the least urgent queue that has one. -/
def evict (s : PeerQueues) : Option SocketAddr × PeerQueues :=
  match s.peerBacklog.getLast? with
  | some addr => (some addr, { s with peerBacklog := s.peerBacklog.dropLast })
  | none =>
    match s.dialRetries.getLast? with
    | some e => (some e.1, { s with dialRetries := s.dialRetries.dropLast })
    | none =>
      match s.usefulRedials.getLast? with
      | some e => (some e.1, { s with usefulRedials := s.usefulRedials.dropLast })
      | none =>
        match s.priorityBacklog.getLast? with
        | some addr => (some addr, { s with priorityBacklog := s.priorityBacklog.dropLast })
        | none => (none, s)

/-- `promote_holepunch_candidate`, with whether the address was queued. -/
def promoteHolepunchCandidate (s : PeerQueues) (addr : SocketAddr) : PeerQueues × Bool :=
  let activeAddrs := s.activeAddrs
  let s := s.normalizePeerQueues activeAddrs
  if !isDialablePeerAddr addr || decide (addr ∈ activeAddrs) then (s, false)
  else
    let s := s.unqueuePeerAddr addr
    let room := if maxPeerBacklog ≤ s.queued then s.evict else (some addr, s)
    match room.1 with
    | none => (room.2, false)
    | some _ =>
      ({ room.2 with priorityBacklog := addr :: room.2.priorityBacklog }.normalizePeerQueues activeAddrs, true)

/-- `enqueue_peer_candidate`, with whether the address was queued. -/
def enqueuePeerCandidate (s : PeerQueues) (addr : SocketAddr) (priority : Bool) (blocked : IpAddr → Bool) : PeerQueues × Bool :=
  let push (s : PeerQueues) : PeerQueues :=
    let s := if priority then { s with priorityBacklog := s.priorityBacklog ++ [addr] }
      else { s with peerBacklog := s.peerBacklog ++ [addr] }
    { s with knownAddrs := insert addr s.knownAddrs }
  if blocked addr.ip then (s, false)
  else if !isDialablePeerAddr addr || decide (addr ∈ s.knownAddrs) then (s, false)
  else if maxPeerBacklog ≤ s.queued then
    if !priority then (s, false)
    else
      match s.evict with
      | (none, s) => (s, false)
      | (some evicted, s) => (push { s with knownAddrs := s.knownAddrs.erase evicted }, true)
  else (push s, true)

/-- The closure `insert` of `schedule_peer_retry`: behind the entries that are due no later. -/
def insertTimed (queue : List TimedAddr) (addr : SocketAddr) (due : Nat) : List TimedAddr :=
  if queue.length < maxDialRetries then
    queue.takeWhile (fun e => e.2 ≤ due) ++ (addr, due) :: queue.dropWhile (fun e => e.2 ≤ due)
  else queue

/-- `schedule_peer_retry`. -/
def schedulePeerRetry (s : PeerQueues) (addr : SocketAddr) (useful : Bool) (failures now : Nat) : PeerQueues :=
  let backoff := 3 ^ min failures maxDialFailures
  if useful then { s with usefulRedials := insertTimed s.usefulRedials addr (now + usefulPeerRedialDelay * backoff) }
  else { s with dialRetries := insertTimed s.dialRetries addr (now + dialRetryDelay * backoff) }

/-! ## Draining -/

/-- What `drain_peer_backlog` reads from outside. The answers of the session's budget depend on the entries left in the queue. -/
structure DrainEnv where
  now : Nat
  livePeers : Nat
  maxPeers : Nat
  blocked : IpAddr → Bool
  leaseFull : Nat → Bool
  tryReserve : Nat → Bool

/-- `dial_slot_available`. -/
def dialSlotAvailable (livePeers pendingDials maxPeers pendingLimit : Nat) (sessionHasRoom : Bool) : Bool :=
  sessionHasRoom && decide (livePeers + pendingDials < maxPeers) && decide (pendingDials < pendingLimit)

/-- The closure `spawn_one`. -/
def spawnOne (s : PeerQueues) (addr : SocketAddr) : PeerQueues :=
  { s with pendingDials := s.pendingDials.insert s.nextPid addr, nextPid := s.nextPid + 1 }

/-- The two loops of `drain_peer_backlog` that dial, over a queue: what is left of it, and the state. -/
def dialFrom (env : DrainEnv) (pendingLimit : Nat) : List SocketAddr → PeerQueues → List SocketAddr × PeerQueues
  | [], s => ([], s)
  | addr :: rest, s =>
    if !dialSlotAvailable env.livePeers s.pendingDials.size env.maxPeers pendingLimit (!env.leaseFull rest.length) then
      (addr :: rest, s)
    else if addr ∉ s.knownAddrs then dialFrom env pendingLimit rest s
    else if env.blocked addr.ip then dialFrom env pendingLimit rest { s with knownAddrs := s.knownAddrs.erase addr }
    else if !env.tryReserve rest.length then (addr :: rest, s)
    else dialFrom env pendingLimit rest (s.spawnOne addr)

/-- `drain_peer_backlog`. Of the timed entries that are due, the redials go before the others one by one. -/
def drainPeerBacklog (s : PeerQueues) (env : DrainEnv) : PeerQueues :=
  let redials := (s.usefulRedials.takeWhile (fun e => e.2 ≤ env.now)).filter (fun e => e.1 ∈ s.knownAddrs)
  let retries := (s.dialRetries.takeWhile (fun e => e.2 ≤ env.now)).filter (fun e => e.1 ∈ s.knownAddrs)
  let s := { s with
    usefulRedials := s.usefulRedials.dropWhile (fun e => e.2 ≤ env.now)
    priorityBacklog := (redials.map Prod.fst).reverse ++ s.priorityBacklog
    dialRetries := s.dialRetries.dropWhile (fun e => e.2 ≤ env.now)
    peerBacklog := s.peerBacklog ++ retries.map Prod.fst }
  let priority := dialFrom env maxPendingDials s.priorityBacklog s
  let s := { priority.2 with priorityBacklog := priority.1 }
  let coldCap := if env.livePeers < 8 then maxPendingDials - priorityDialReserve else maxPendingDials
  let cold := dialFrom env coldCap s.peerBacklog s
  { cold.2 with peerBacklog := cold.1 }

end PeerQueues

/-- The calls on the queues, and what changes the peers and the dials in between. -/
inductive PeerQueueCall where
  | enqueue (addr : SocketAddr) (priority : Bool) (blocked : IpAddr → Bool)
  | promote (addr : SocketAddr)
  | drain (env : PeerQueues.DrainEnv)
  | retry (addr : SocketAddr) (useful : Bool) (failures now : Nat)
  | unqueue (addr : SocketAddr)
  | forget (addr : SocketAddr)
  | refresh
  | activity (peers : OrdMap Nat SwarmPeer) (pendingDials : OrdMap Nat SocketAddr)

/-- The state after a call. -/
def PeerQueueCall.apply (s : PeerQueues) : PeerQueueCall → PeerQueues
  | .enqueue addr priority blocked => (s.enqueuePeerCandidate addr priority blocked).1
  | .promote addr => (s.promoteHolepunchCandidate addr).1
  | .drain env => s.drainPeerBacklog env
  | .retry addr useful failures now => s.schedulePeerRetry addr useful failures now
  | .unqueue addr => s.unqueuePeerAddr addr
  | .forget addr => { s with knownAddrs := s.knownAddrs.erase addr }
  | .refresh => s.refreshPeerQueueState
  | .activity peers pendingDials => { s with peers := peers, pendingDials := pendingDials }

end Risuko
