import Mathlib.Tactic.IntervalCases
import Risuko.Lemmas.Routes
import Risuko.Lib.Reach

/-!
# Sockets and routes

Which way the packets of a connection go, when the proxy changes as a whole: in every run in which the calls take their two numbers in turn,
the routes of both sockets come to be those of the last call. In every run at all no connection outlives the proxy route it was dialled over,
and nothing is sent past a proxy that the bypass list does not name.
-/

namespace Risuko

/-- Two sockets without connections, before any call. -/
def RoutePair.Starts (p : RoutePair) : Prop :=
  p.calls = [] ∧ p.connects = [] ∧ p.dials = [] ∧ ∀ side, (p.socket side).registry = (fun _ => none) ∧ (p.socket side).proxyRegistry = []

/-- A run of the pair. -/
def RouteRun : RoutePair → Prop := Reach RoutePair.Starts (fun p p' => ∃ op : RouteOp, op.Possible p ∧ p' = op.run p)

/-- A run in which every call takes its two numbers in turn. -/
def InTurnRun : RoutePair → Prop :=
  Reach RoutePair.Starts (fun p p' => ∃ op : RouteOp, op.Possible p ∧ op.InTurn p ∧ p' = op.run p)

def ReconfigureCall.Returned (c : ReconfigureCall) : Prop := ∀ side, ∃ generation route, c.phase side = .returned generation route

/-- Once all calls have returned, the routes of both sockets are those that the call with the last number of the primary socket has
built from its setting. -/
def RoutesOfOneCall (p : RoutePair) : Prop :=
  p.calls ≠ [] → (∀ c ∈ p.calls, c.Returned) →
    ∃ i c, p.calls[i]? = some c ∧ (c.phase .primary).generation = some (p.socket .primary).reconfigureGeneration ∧
      ∀ side, (p.socket side).builtBy = some i ∧ (c.phase side).route = some (p.socket side).outbound ∧
        ∃ bindUdp bindUdpWithBypass, (p.socket side).outbound = buildOutboundRoute c.proxy bindUdp bindUdpWithBypass

/-- A connection dialled over a proxy is registered only while the route it was dialled over stands. -/
def NoneOverReplaced (p : RoutePair) : Prop :=
  ∀ d ∈ p.dials, ∀ association, d.transport = .proxy association → ∀ side key, (p.socket side).registry key = some d.token →
    side = d.side ∧ d.builtBy = (p.socket side).builtBy ∧ d.route = (p.socket side).outbound

/-- A dial is sent directly only where the route it read is direct, or blocked with a bypass that names the peer. -/
def NoneSentPast (p : RoutePair) : Prop :=
  ∀ d ∈ p.dials, d.transport = .direct →
    d.route = .direct ∨ ∃ error bypass, d.route = .blocked error bypass ∧ bypass.matchesHostPort d.remote = true

/-- At the start no call has taken a number. -/
theorem RoutePair.Starts.ordered {p : RoutePair} (h : p.Starts) : p.Ordered := by
  obtain ⟨hcalls, _, _, _⟩ := h
  refine ⟨?_, fun side i c generation route hc => ?_⟩
  · have htaken : p.taken = fun _ _ => none := by
      funext side i
      rw [RoutePair.taken, hcalls]
      rfl
    rw [htaken]
    exact Tickets.init p.counter
  · rw [hcalls] at hc
    cases hc

theorem RoutePair.Starts.fromSetting {p : RoutePair} (h : p.Starts) : p.FromSetting := by
  intro i c side route hc
  rw [h.1] at hc
  cases hc

theorem RoutePair.Starts.linked {p : RoutePair} (h : p.Starts) : p.Linked := by
  obtain ⟨_, _, hdials, hempty⟩ := h
  refine ⟨fun side key token hkey => ?_, ?_, ?_, ?_⟩
  · rw [(hempty side).1] at hkey
    cases hkey
  all_goals
    intro d hd
    rw [hdials] at hd
    cases hd

/-- A run in which calls take their numbers in turn is a run. -/
theorem InTurnRun.routeRun {p : RoutePair} (h : InTurnRun p) : RouteRun p := by
  refine Reach.invariant (fun p hp => .init hp) ?_ h
  rintro p p' hp ⟨op, hpossible, _, rfl⟩
  exact .step hp ⟨op, hpossible, rfl⟩

/-- In turn, the numbers of both sockets are taken in one order. -/
theorem InTurnRun.ordered {p : RoutePair} (h : InTurnRun p) : p.Ordered := by
  refine Reach.invariant (fun p hp => hp.ordered) ?_ h
  rintro p p' hp ⟨op, _, hturn, rfl⟩
  exact hp.run hturn

/-- Every route of a run was built from the setting of its call. -/
theorem RouteRun.fromSetting {p : RoutePair} (h : RouteRun p) : p.FromSetting := by
  refine Reach.invariant (fun p hp => hp.fromSetting) ?_ h
  rintro p p' hp ⟨op, _, rfl⟩
  exact hp.run op

/-- Every connection that is registered was dialled over the route that stands. -/
theorem RouteRun.linked {p : RoutePair} (h : RouteRun p) : p.Linked := by
  refine Reach.invariant (fun p hp => hp.linked) ?_ h
  rintro p p' hp ⟨op, hpossible, rfl⟩
  exact hp.run hpossible

/-- The last call has both last numbers, and has applied both its routes. -/
theorem RoutePair.Ordered.routesOfOneCall {p : RoutePair} (h : p.Ordered) (hfrom : p.FromSetting) : RoutesOfOneCall p := by
  intro hne hreturned
  have hnone : ∀ i, ¬ HalfTaken p.taken i := by
    rintro i ⟨a, b, ha, hb⟩
    obtain ⟨g, hg⟩ := Option.isSome_iff_exists.mp ha
    obtain ⟨c, hc, _⟩ := Option.bind_eq_some_iff.mp hg
    obtain ⟨generation, route, hphase⟩ := hreturned c (List.mem_of_getElem? hc) b
    rw [RoutePair.taken_eq hc, hphase] at hb
    cases hb
  obtain ⟨c0, hc0⟩ := List.exists_mem_of_ne_nil _ hne
  obtain ⟨i0, hi0⟩ := List.mem_iff_getElem?.mp hc0
  obtain ⟨g0, r0, hphase0⟩ := hreturned c0 hc0 .primary
  obtain ⟨i, hi⟩ := h.tickets.holder .primary i0 g0 (by rw [RoutePair.taken_eq hi0, hphase0]; rfl)
  obtain ⟨c, hc, hgen⟩ := Option.bind_eq_some_iff.mp hi
  refine ⟨i, c, hc, hgen, fun side => ?_⟩
  obtain ⟨generation, route, hphase⟩ := hreturned c (List.mem_of_getElem? hc) side
  have hlast := h.tickets.last hnone i .primary side hi
  rw [RoutePair.taken_eq hc, hphase] at hlast
  obtain ⟨hbuilt, hout⟩ := h.settled side i c generation route hc hphase (Option.some.inj hlast)
  refine ⟨hbuilt, by rw [hphase, hout]; rfl, ?_⟩
  rw [hout]
  exact hfrom i c side route hc (by rw [hphase]; rfl)

/-- In every run in which no call takes a number while another call has taken one of its two, the routes of both sockets are those of
one call once all have returned, no connection over a replaced proxy route is registered, and no dial goes past its route. -/
theorem proxy_applies_as_a_whole (p : RoutePair) (h : InTurnRun p) : RoutesOfOneCall p ∧ NoneOverReplaced p ∧ NoneSentPast p := by
  have hlinked := h.routeRun.linked
  refine ⟨h.ordered.routesOfOneCall h.routeRun.fromSetting, fun d hd association hproxy side key hkey => ?_, hlinked.sent⟩
  obtain ⟨hside, _, hroute⟩ := hlinked.proxied d hd association hproxy side key hkey
  exact ⟨hside, hroute⟩

/-- Two sockets of direct routes. -/
def directPair : RoutePair where
  socket := fun _ => ⟨fun _ => none, [], .direct, 1, none⟩
  calls := []
  connects := []
  dials := []
  nextToken := 0

theorem directPair_starts : directPair.Starts := ⟨rfl, rfl, rfl, fun _ => ⟨rfl, rfl⟩⟩

/-- A proxy without bypass. -/
def someProxy : ProxyConnector := ⟨true, none⟩

instance (c : ReconfigureCall) : Decidable c.HalfNumbered := inferInstanceAs (Decidable (_ ≠ _))

theorem inTurn_number {p : RoutePair} {i : Nat} (h : ∀ e ∈ p.calls.zipIdx, e.2 ≠ i → ¬ e.1.HalfNumbered) (side : Side) :
    (RouteOp.number i side).InTurn p :=
  fun j c hj hc => h (c, j) (List.mem_zipIdx_iff_getElem?.mpr hc) hj

/-- Steps that can be taken one after the other, each number in turn. -/
def InTurnOps : RoutePair → List RouteOp → Prop
  | _, [] => True
  | p, op :: ops => op.Possible p ∧ op.InTurn p ∧ InTurnOps (op.run p) ops

/-- A list of operations in turn goes on with a run in turn. -/
theorem InTurnRun.foldl {p : RoutePair} (h : InTurnRun p) {ops : List RouteOp} (hops : InTurnOps p ops) :
    InTurnRun (ops.foldl RouteOp.run p) := by
  induction ops generalizing p with
  | nil => exact h
  | cons op ops ih => exact ih (.step h ⟨op, hops.1, hops.2.1, rfl⟩) hops.2.2

/-- A call that sets a proxy and one that takes it away again overlap; the second has the last numbers, and the first one's routes are
dropped. -/
def overlapping : List RouteOp :=
  [.call (some someProxy), .call none, .number 0 .primary, .number 0 .sibling, .number 1 .primary, .number 1 .sibling,
    .build 1 .primary (.ok 3) (.ok 3), .build 1 .sibling (.ok 4) (.ok 4), .apply 1 .sibling, .build 0 .primary (.ok 1) (.ok 1),
    .build 0 .sibling (.ok 2) (.ok 2), .apply 0 .sibling, .apply 1 .primary, .apply 0 .primary]

theorem overlapping_inTurn : InTurnRun (overlapping.foldl RouteOp.run directPair) := by
  refine InTurnRun.foldl (.init directPair_starts) ?_
  refine ⟨trivial, trivial, trivial, trivial, trivial, inTurn_number (by decide) _, trivial, inTurn_number (by decide) _, trivial,
    inTurn_number (by decide) _, trivial, inTurn_number (by decide) _, ?_⟩
  exact ⟨trivial, trivial, trivial, trivial, trivial, trivial, trivial, trivial, trivial, trivial, trivial, trivial, trivial, trivial,
    trivial, trivial, trivial⟩

/-- Of two calls that overlap, one has built the routes of both sockets. -/
theorem proxy_applies_overlapping :
    InTurnRun (overlapping.foldl RouteOp.run directPair) ∧
      ((overlapping.foldl RouteOp.run directPair).socket .primary).builtBy = some 1 ∧
      RoutesOfOneCall (overlapping.foldl RouteOp.run directPair) := by
  have hall := proxy_applies_as_a_whole (overlapping.foldl RouteOp.run directPair) overlapping_inTurn
  exact ⟨overlapping_inTurn, rfl, hall.1⟩

/-- The second call takes both its numbers between those of the first. -/
def crossed : List RouteOp :=
  [.call (some someProxy), .call none, .number 0 .primary, .number 1 .primary, .number 1 .sibling, .number 0 .sibling,
    .build 0 .primary (.ok 1) (.ok 1), .build 0 .sibling (.ok 2) (.ok 2), .build 1 .primary (.ok 3) (.ok 3),
    .build 1 .sibling (.ok 4) (.ok 4), .apply 0 .primary, .apply 0 .sibling, .apply 1 .primary, .apply 1 .sibling]

/-- The primary socket has the route of the second call and its sibling that of the first. -/
theorem siblings_differ : ¬ ∀ p, RouteRun p → RoutesOfOneCall p ∧ NoneOverReplaced p ∧ NoneSentPast p := by
  intro hall
  have hrun : RouteRun (crossed.foldl RouteOp.run directPair) := by
    refine Reach.foldl (.init directPair_starts) fun _ op hop => ⟨op, ?_, rfl⟩
    simp only [crossed, List.mem_cons, List.not_mem_nil, or_false] at hop
    rcases hop with rfl | rfl | rfl | rfl | rfl | rfl | rfl | rfl | rfl | rfl | rfl | rfl | rfl | rfl <;> trivial
  have hreturned : ∀ c ∈ (crossed.foldl RouteOp.run directPair).calls, c.Returned := by
    intro c hc
    obtain ⟨i, hi⟩ := List.mem_iff_getElem?.mp hc
    have hlen : i < 2 := (List.getElem?_eq_some_iff.mp hi).1
    interval_cases i
    · cases hi
      intro side
      cases side <;> exact ⟨_, _, rfl⟩
    · cases hi
      intro side
      cases side <;> exact ⟨_, _, rfl⟩
  obtain ⟨i, _, _, _, hside⟩ := (hall _ hrun).1 nofun hreturned
  have hprimary : ((crossed.foldl RouteOp.run directPair).socket .primary).builtBy = some 1 := rfl
  have hsibling : ((crossed.foldl RouteOp.run directPair).socket .sibling).builtBy = some 0 := rfl
  have h1 := (hside .primary).1
  have h0 := (hside .sibling).1
  rw [hprimary] at h1
  rw [hsibling, ← h1] at h0
  exact absurd h0 (by decide)

end Risuko
