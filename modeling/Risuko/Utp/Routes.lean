import Mathlib.Logic.Function.Basic
import Risuko.Net

/-!
# The outbound route of a pair of sockets

`UtpSocket::reconfigure_proxy`, `connect_timeout` and `dial` for a primary socket and its IPv6 sibling. A call runs the same
`reconfigure_route` on both sockets, and each run takes a number there, builds its route for as long as it likes, and applies it
under the lock of the socket if no later number was taken meanwhile. A dial reads the route and registers its connection under the
same lock. Each of these is a step, and so is everything else that touches the registrations.
-/

/-!
## Registered connections

The two maps of `socket.rs` that say which connection a datagram belongs to. A registration is the token of its connection: two
connections never have the same one. The map of a socket is a function of the address and the id, and the map of a proxy route the
list of its entries, one for each id.
-/

namespace Risuko

abbrev ConnKey := SocketAddr × UInt16

abbrev ConnRegistry := ConnKey → Option Nat

/-- An entry of the map of a proxy route. -/
structure ProxyConnRegistration where
  id : UInt16
  key : ConnKey
  token : Nat
  deriving DecidableEq

def ConnRegistry.insert (registry : ConnRegistry) (key : ConnKey) (token : Nat) : ConnRegistry :=
  Function.update registry key (some token)

/-- `remove_connection_registration`. -/
def removeConnectionRegistration (registry : ConnRegistry) (key : ConnKey) (token : Nat) : ConnRegistry :=
  if registry key = some token then Function.update registry key none else registry

/-- `remove_proxy_connection_registration`. -/
def removeProxyConnectionRegistration (proxyRegistry : List ProxyConnRegistration) (id : UInt16) (token : Nat) :
    List ProxyConnRegistration :=
  proxyRegistry.filter (fun c => !(c.id = id && c.token = token))

/-- The search of `dial` for an id that is free, which gives up after 64 others. -/
def freeId (taken : UInt16 → Bool) : Nat → UInt16 → Option UInt16
  | 0, id => if taken id then none else some id
  | tries + 1, id => if taken id then freeId taken tries (id + 1) else some id

end Risuko

/-!
## Registrations come and go one at a time

A registration is removed by the token of its connection, so that one connection never removes another's.
-/

namespace Risuko

theorem removeConnectionRegistration_some {registry : ConnRegistry} {key key' : ConnKey} {token token' : Nat}
    (h : removeConnectionRegistration registry key token key' = some token') :
    registry key' = some token' ∧ ¬ (key' = key ∧ token' = token) := by
  unfold removeConnectionRegistration at h
  split at h
  · by_cases hk : key' = key
    · rw [hk, Function.update_self] at h
      cases h
    · rw [Function.update_of_ne hk] at h
      exact ⟨h, fun hc => hk hc.1⟩
  · rename_i hne
    refine ⟨h, ?_⟩
    rintro ⟨rfl, rfl⟩
    exact hne h

theorem insert_some {registry : ConnRegistry} {key key' : ConnKey} {token token' : Nat} (h : registry.insert key token key' = some token') :
    (key' = key ∧ token' = token) ∨ registry key' = some token' := by
  unfold ConnRegistry.insert at h
  by_cases hk : key' = key
  · rw [hk, Function.update_self] at h
    exact .inl ⟨hk, (Option.some.inj h).symm⟩
  · rw [Function.update_of_ne hk] at h
    exact .inr h

end Risuko

namespace Risuko

/-- The hosts that are reached without the proxy. -/
structure NoProxy where
  isEmpty : Bool
  matchesHostPort : SocketAddr → Bool

structure ProxyConnector where
  /-- `udp_proxy().is_some()`. -/
  udpProxy : Bool
  udpNoProxy : Option NoProxy

/-- A route; a proxy association is known by its number. -/
inductive OutboundRoute
  | direct
  | proxy (association : Nat)
  | blocked (error : String) (bypass : NoProxy)

/-- `NoProxy::default`. -/
def NoProxy.none : NoProxy := ⟨true, fun _ => false⟩

/-- `build_outbound_route`, with what the two ways to bind a datagram socket give. -/
def buildOutboundRoute (proxy : Option ProxyConnector) (bindUdp bindUdpWithBypass : Except String Nat) : OutboundRoute :=
  match proxy with
  | none => .direct
  | some connector =>
    if !connector.udpProxy then .direct
    else
      let bypass := connector.udpNoProxy.getD .none
      match if !bypass.isEmpty then bindUdpWithBypass else bindUdp with
      | .ok association => .proxy association
      | .error error => .blocked error bypass

inductive DatagramTransport
  | direct
  | proxy (association : Nat)

inductive Side
  | primary
  | sibling
  deriving DecidableEq

/-- How far a call is on one of the sockets. -/
inductive CallPhase
  | waiting
  | building (generation : Nat)
  | built (generation : Nat) (route : OutboundRoute)
  | returned (generation : Nat) (route : OutboundRoute)

/-- The number a call has taken on a socket. -/
def CallPhase.generation : CallPhase → Option Nat
  | waiting => none
  | building generation => some generation
  | built generation _ => some generation
  | returned generation _ => some generation

/-- The route a call has built on a socket. -/
def CallPhase.route : CallPhase → Option OutboundRoute
  | waiting => none
  | building _ => none
  | built _ route => some route
  | returned _ route => some route

/-- A call of `reconfigure_proxy`. -/
structure ReconfigureCall where
  proxy : Option ProxyConnector
  phase : Side → CallPhase

/-- One of the sockets. `builtBy` is no field of the program: it is the call that built the route. -/
structure RouteSocket where
  registry : ConnRegistry
  proxyRegistry : List ProxyConnRegistration
  outbound : OutboundRoute
  reconfigureGeneration : Nat
  builtBy : Option Nat

/-- What is kept of a dial that got a transport, to state what became of it: the route it read, who built that route, and what it
hands its datagrams to. -/
structure Dialled where
  side : Side
  remote : SocketAddr
  token : Nat
  route : OutboundRoute
  builtBy : Option Nat
  transport : DatagramTransport

/-- The two sockets, the calls, the dials that wait for the lock of a socket, and those that had it. -/
structure RoutePair where
  socket : Side → RouteSocket
  calls : List ReconfigureCall
  connects : List (Side × SocketAddr)
  dials : List Dialled
  nextToken : Nat

inductive RouteOp
  | call (proxy : Option ProxyConnector)
  | number (i : Nat) (side : Side)
  | build (i : Nat) (side : Side) (bindUdp bindUdpWithBypass : Except String Nat)
  | apply (i : Nat) (side : Side)
  | connect (remote : SocketAddr)
  | dial (n : Nat) (random : UInt16)
  | openInbound (side : Side) (key : ConnKey)
  | unregister (side : Side) (key : ConnKey) (token : Nat)
  | unregisterProxy (side : Side) (id : UInt16) (token : Nat)

namespace RouteSocket

/-- The part of `reconfigure_route` under the lock, for a route that is not outdated. -/
def applyRoute (s : RouteSocket) (route : OutboundRoute) (call : Nat) : RouteSocket :=
  { s with
    registry := s.proxyRegistry.foldl (fun registry c => removeConnectionRegistration registry c.key c.token) s.registry
    proxyRegistry := []
    outbound := route
    builtBy := some call }

/-- The transport a dial gets, if it gets one. -/
def transport (s : RouteSocket) (remote : SocketAddr) : Option DatagramTransport :=
  match s.outbound with
  | .direct => some .direct
  | .proxy association => some (.proxy association)
  | .blocked _ bypass => if bypass.matchesHostPort remote then some .direct else none

def usesProxy (s : RouteSocket) : Bool :=
  match s.outbound with
  | .proxy _ => true
  | _ => false

/-- The ids `dial` passes over. -/
def takenId (s : RouteSocket) (remote : SocketAddr) (id : UInt16) : Bool :=
  (s.registry (remote, id)).isSome || (s.usesProxy && s.proxyRegistry.any (fun c => c.id = id))

/-- The registration of a dial. -/
def register (s : RouteSocket) (remote : SocketAddr) (id : UInt16) (token : Nat) : RouteSocket :=
  { s with
    registry := s.registry.insert (remote, id) token
    proxyRegistry := if s.usesProxy then ⟨id, (remote, id), token⟩ :: s.proxyRegistry else s.proxyRegistry }

/-- The registration of a dial taken back. -/
def deregister (s : RouteSocket) (remote : SocketAddr) (id : UInt16) (token : Nat) : RouteSocket :=
  { s with
    registry := removeConnectionRegistration s.registry (remote, id) token
    proxyRegistry := removeProxyConnectionRegistration s.proxyRegistry id token }

end RouteSocket

namespace RoutePair

def setSocket (p : RoutePair) (side : Side) (s : RouteSocket) : RoutePair := { p with socket := Function.update p.socket side s }

def setPhase (p : RoutePair) (i : Nat) (side : Side) (phase : CallPhase) : RoutePair :=
  { p with calls := p.calls.modify i (fun c => { c with phase := Function.update c.phase side phase }) }

/-- The increment of `reconfigure_generation`. -/
def number (p : RoutePair) (i : Nat) (side : Side) : RoutePair :=
  match p.calls[i]? with
  | some c =>
    match c.phase side with
    | .waiting =>
      let generation := (p.socket side).reconfigureGeneration + 1
      (p.setSocket side { p.socket side with reconfigureGeneration := generation }).setPhase i side (.building generation)
    | _ => p
  | none => p

def build (p : RoutePair) (i : Nat) (side : Side) (bindUdp bindUdpWithBypass : Except String Nat) : RoutePair :=
  match p.calls[i]? with
  | some c =>
    match c.phase side with
    | .building generation => p.setPhase i side (.built generation (buildOutboundRoute c.proxy bindUdp bindUdpWithBypass))
    | _ => p
  | none => p

/-- The end of `reconfigure_route`, with the lock of the socket. -/
def apply (p : RoutePair) (i : Nat) (side : Side) : RoutePair :=
  match p.calls[i]? with
  | some c =>
    match c.phase side with
    | .built generation route =>
      let p' := p.setPhase i side (.returned generation route)
      if (p.socket side).reconfigureGeneration ≠ generation then p'
      else p'.setSocket side ((p.socket side).applyRoute route i)
    | _ => p
  | none => p

/-- The socket `connect_timeout` dials on, for a primary socket of IPv4: the one of the address's family, but the primary one while
its route is a proxy. -/
def connectSide (p : RoutePair) (remote : SocketAddr) : Side :=
  if (p.socket .primary).usesProxy then .primary else if remote.isIpv6 then .sibling else .primary

/-- `dial`, with the lock of the socket. -/
def dial (p : RoutePair) (n : Nat) (random : UInt16) : RoutePair :=
  match p.connects[n]? with
  | none => p
  | some (side, remote) =>
    let s := p.socket side
    let p := { p with connects := p.connects.eraseIdx n }
    match freeId (s.takenId remote) 64 random with
    | none => p
    | some id =>
      let token := p.nextToken
      let p := { p with nextToken := token + 1 }
      match s.transport remote with
      | none => p.setSocket side ((s.register remote id token).deregister remote id token)
      | some transport =>
        { p.setSocket side (s.register remote id token) with dials := ⟨side, remote, token, s.outbound, s.builtBy, transport⟩ :: p.dials }

/-- A connection from outside is registered. -/
def openInbound (p : RoutePair) (side : Side) (key : ConnKey) : RoutePair :=
  let s := p.socket side
  if (s.registry key).isSome then p
  else { p.setSocket side { s with registry := s.registry.insert key p.nextToken } with nextToken := p.nextToken + 1 }

/-- A driver ends, or a connection is evicted. -/
def unregister (p : RoutePair) (side : Side) (key : ConnKey) (token : Nat) : RoutePair :=
  let s := p.socket side
  p.setSocket side { s with registry := removeConnectionRegistration s.registry key token }

/-- The driver of a dial over a proxy ends; it has left the registry before. -/
def unregisterProxy (p : RoutePair) (side : Side) (id : UInt16) (token : Nat) : RoutePair :=
  let s := p.socket side
  p.setSocket side { s with proxyRegistry := removeProxyConnectionRegistration s.proxyRegistry id token }

end RoutePair

def RouteOp.run (p : RoutePair) : RouteOp → RoutePair
  | call proxy => { p with calls := p.calls ++ [⟨proxy, fun _ => .waiting⟩] }
  | number i side => p.number i side
  | build i side bindUdp bindUdpWithBypass => p.build i side bindUdp bindUdpWithBypass
  | apply i side => p.apply i side
  | connect remote => { p with connects := p.connects ++ [(p.connectSide remote, remote)] }
  | dial n random => p.dial n random
  | openInbound side key => p.openInbound side key
  | unregister side key token => p.unregister side key token
  | unregisterProxy side id token => p.unregisterProxy side id token

/-- What the program does not do: end the proxy registration of a connection that is still in the registry. -/
def RouteOp.Possible (p : RoutePair) : RouteOp → Prop
  | unregisterProxy side _ token => ∀ key, (p.socket side).registry key ≠ some token
  | _ => True

/-- A call that has taken its number on one of the sockets only. -/
def ReconfigureCall.HalfNumbered (c : ReconfigureCall) : Prop :=
  (c.phase .primary).generation.isSome ≠ (c.phase .sibling).generation.isSome

/-- No number is taken while another call has taken one of its two. -/
def RouteOp.InTurn (p : RoutePair) : RouteOp → Prop
  | number i _ => ∀ j c, j ≠ i → p.calls[j]? = some c → ¬ c.HalfNumbered
  | _ => True

end Risuko
