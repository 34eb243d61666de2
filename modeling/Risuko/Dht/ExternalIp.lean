import Mathlib.Data.List.MinMax
import Mathlib.Data.Prod.Lex
import Risuko.Lib.Lists
import Risuko.Net

/-!
# The election of our external address

`external_ip.rs`: the hosts that we talk to say which address they see us at, and gateways report one. Times are in nanoseconds, and which addresses
are public is a parameter (`is_public_address`).
-/

namespace Risuko

namespace ExternalIp

def minVoterNetworks : Nat := 3
def maxCandidates : Nat := 32
def maxVoterNetworks : Nat := 64
def ageInterval : Nat := 60 * 60 * 1000000000
def maxAgeSteps : Nat := 8
def maxGateways : Nat := 8
def gatewayTtl : Nat := 3 * 60 * 60 * 1000000000

inductive Source where
  | peer
  | tracker
  | dht
  | gateway
  deriving DecidableEq

inductive Route where
  | direct
  | proxied
  deriving DecidableEq

inductive Voter where
  | ip (ip : IpAddr)
  | host
  deriving DecidableEq

/-- The first 24 bits of an IPv4 address, or the first 48 of an IPv6 address. -/
inductive Network where
  | v4 (bits : Nat)
  | v6 (bits : Nat)
  | host
  deriving DecidableEq

/-- `Voter::network`. -/
def Voter.network (isPublicAddress : IpAddr → Bool) : Voter → Option Network
  | .ip addr =>
    if !isPublicAddress addr.toCanonical then none
    else
      match addr.toCanonical with
      | .v4 octets => some (.v4 (octets.toNat / 2 ^ 8))
      | .v6 octets => some (.v6 (octets / 2 ^ 80))
  | .host => some .host

structure ExternalAddresses where
  v4 : Option UInt32
  v6 : Option Nat
  deriving DecidableEq

/-- The address of one family. -/
def ExternalAddresses.get (a : ExternalAddresses) (v6 : Bool) : Option IpAddr := if v6 then a.v6.map .v6 else a.v4.map .v4

structure Candidate where
  addr : IpAddr
  networks : List Network
  touched : Nat

/-- A vote for a candidate: its oldest one goes when it has too many. -/
def Candidate.add (candidate : Candidate) (network : Network) (clock : Nat) : Candidate where
  addr := candidate.addr
  networks := (if candidate.networks.length ≥ maxVoterNetworks then candidate.networks.drop 1 else candidate.networks) ++ [network]
  touched := clock

structure Gateway where
  id : Voter
  addr : IpAddr
  backed : Option Nat

structure Family where
  elected : Option IpAddr
  gateways : List Gateway
  candidates : List Candidate
  clock : Nat

namespace Family

def default : Family := ⟨none, [], [], 0⟩

def backed (f : Family) (addr : IpAddr) : Bool := f.gateways.any fun gateway => gateway.addr = addr && gateway.backed.isSome

def strength (f : Family) (addr : IpAddr) : Nat :=
  let networks := ((f.candidates.find? fun candidate => candidate.addr = addr).map fun candidate => candidate.networks.length).getD 0
  if f.backed addr then max networks minVoterNetworks else networks

/-- `protected`. -/
def isProtected (f : Family) (addr : IpAddr) : Bool := f.elected = some addr || f.backed addr

/-- The place of the candidate that `evict_for_newcomer` looks at, and this candidate. -/
def victim (f : Family) : Option (Candidate × Nat) :=
  f.candidates.zipIdx.argmin fun e => toLex (f.isProtected e.1.addr, toLex (e.1.networks.length, e.1.touched))

/-- `evict_for_newcomer`. -/
def evictForNewcomer (f : Family) : Bool × Family :=
  match f.victim with
  | some (candidate, index) =>
    if !f.isProtected candidate.addr && candidate.networks.length ≤ 1 then (true, { f with candidates := swapRemove f.candidates index })
    else (false, f)
  | none => (false, f)

/-- `cast`. -/
def cast (f : Family) (addr : IpAddr) (network : Network) : Bool × Family :=
  let f := { f with clock := f.clock + 1 }
  match f.candidates.findIdx? fun candidate => candidate.addr = addr && network ∈ candidate.networks with
  | some i => (false, { f with candidates := f.candidates.modify i fun candidate => { candidate with touched := f.clock } })
  | none =>
    let candidates := f.candidates.map fun candidate =>
      if candidate.addr ≠ addr then { candidate with networks := candidate.networks.filter (· ≠ network) } else candidate
    let candidates := candidates.filter fun candidate => candidate.addr = addr || !candidate.networks.isEmpty
    let f := { f with candidates := candidates }
    match f.candidates.findIdx? fun candidate => candidate.addr = addr with
    | some i => (true, { f with candidates := f.candidates.modify i fun candidate => Candidate.add candidate network f.clock })
    | none =>
      let (room, f) := if f.candidates.length ≥ maxCandidates then f.evictForNewcomer else (true, f)
      (true, if room then { f with candidates := f.candidates ++ [Candidate.add ⟨addr, [], f.clock⟩ network f.clock] } else f)

/-- `report_gateway`. -/
def reportGateway (f : Family) (addr : IpAddr) (id : Voter) (now : Nat) : Family :=
  let (previous, f) :=
    match f.gateways.findIdx? fun gateway => gateway.id = id with
    | some i => (f.gateways[i]?.map (·.addr), { f with gateways := f.gateways.set i ⟨id, addr, some now⟩ })
    | none =>
      let gateways := if f.gateways.length ≥ maxGateways then f.gateways.drop 1 else f.gateways
      (none, { f with gateways := gateways ++ [⟨id, addr, some now⟩] })
  if previous = some addr then f
  else
    let f := match previous with
      | some stale => { f with candidates := f.candidates.filter fun candidate => candidate.addr ≠ stale }
      | none => f
    let wins := f.elected.all fun current => current = addr || f.strength addr ≥ f.strength current
    if wins then { f with elected := some addr } else f

/-- The loop of `reelect`. -/
def best (f : Family) (addrs : List IpAddr) : Option (IpAddr × Nat) :=
  addrs.foldl (fun best addr =>
    let strength := f.strength addr
    if strength < minVoterNetworks then best
    else if best.all fun (_, top) => strength > top then some (addr, strength)
    else best) none

/-- `reelect`. -/
def reelect (f : Family) : Family :=
  match f.best (f.candidates.map (·.addr) ++ f.gateways.map (·.addr)) with
  | none => f
  | some (addr, strength) =>
    match f.elected with
    | some current => if current = addr || strength ≤ f.strength current then f else { f with elected := some addr }
    | none => { f with elected := some addr }

/-- `halve`. -/
def halve (f : Family) (now : Nat) : Family :=
  let candidates := f.candidates.map fun candidate =>
    let keep := candidate.networks.length / 2
    { candidate with networks := candidate.networks.drop (candidate.networks.length - keep) }
  { f with
    candidates := candidates.filter fun candidate => !candidate.networks.isEmpty
    gateways := f.gateways.map fun gateway =>
      if gateway.backed.any fun at_ => now - at_ ≥ gatewayTtl then { gateway with backed := none } else gateway }

end Family

structure State where
  v4 : Family
  v6 : Family
  aged : Nat

namespace State

def family (s : State) (v6 : Bool) : Family := if v6 then s.v6 else s.v4

/-- What `family_mut` is used for. -/
def setFamily (s : State) (v6 : Bool) (f : Family) : State := if v6 then { s with v6 := f } else { s with v4 := f }

/-- The loop of `age`, with the steps that are left. -/
def ageLoop (now : Nat) : Nat → State → Bool × State
  | 0, s => (true, { s with aged := now })
  | left + 1, s =>
    if now - s.aged ≥ ageInterval then
      (true, (ageLoop now left ⟨s.v4.halve now, s.v6.halve now, s.aged + ageInterval⟩).2)
    else (false, s)

/-- `age`. -/
def age (s : State) (now : Nat) : Bool × State := ageLoop now maxAgeSteps s

def snapshot (s : State) : ExternalAddresses where
  v4 := match s.v4.elected with
    | some (.v4 ip) => some ip
    | _ => none
  v6 := match s.v6.elected with
    | some (.v6 ip) => some ip
    | _ => none

end State

end ExternalIp

open ExternalIp

structure ExternalIp where
  state : ExternalIp.State
  published : ExternalAddresses

namespace ExternalIp

/-- What one call of `vote_at` is told. -/
structure Vote where
  now : Nat
  observed : IpAddr
  source : Source
  voter : Voter
  route : Route

def startingAt (now : Nat) : ExternalIp := ⟨⟨.default, .default, now⟩, ⟨none, none⟩⟩

/-- The network that a vote counts for, `none` for a gateway; no value for a vote that is not looked at. -/
def Vote.counts (isPublicAddress : IpAddr → Bool) (v : Vote) : Option (Option Network) :=
  if v.source = .gateway then some none
  else if v.route = .proxied then none
  else (v.voter.network isPublicAddress).map some

/-- `vote_at`. -/
def voteAt (isPublicAddress : IpAddr → Bool) (e : ExternalIp) (v : Vote) : ExternalIp :=
  let observed := v.observed.toCanonical
  if !isPublicAddress observed then e
  else
    match v.counts isPublicAddress with
    | none => e
    | some network =>
      let (aged, state) := e.state.age v.now
      let (changed, family) :=
        match network with
        | some network => (state.family observed.isIpv6).cast observed network
        | none => (true, (state.family observed.isIpv6).reportGateway observed v.voter v.now)
      if !changed && !aged then { e with state := state.setFamily observed.isIpv6 family }
      else
        let state := state.setFamily observed.isIpv6 family.reelect
        ⟨state, state.snapshot⟩

/-- The state after votes. -/
def run (isPublicAddress : IpAddr → Bool) (start : Nat) (votes : List Vote) : ExternalIp :=
  votes.foldl (voteAt isPublicAddress) (startingAt start)

end ExternalIp

end Risuko
