import Risuko.Lib.Lists
import Risuko.Lib.Tickets
import Risuko.Utp.Routes

/-!
# Routes: numbers, registrations and transports

`Ordered` says that the calls' numbers are tickets of the two counters and that the last call to be numbered, once it has returned, is
the one whose route stands. `Linked` says that a connection dialled over a proxy is registered only beside its entry in the map of the
proxy route, and only while that route stands.
-/

namespace Risuko

namespace RoutePair

variable {p p' : RoutePair} {i : Nat} {c : ReconfigureCall} {side : Side} {phase : CallPhase} {s : RouteSocket}
variable {key : ConnKey}

/-- The number a call has taken on a socket. -/
def taken (p : RoutePair) (side : Side) (i : Nat) : Option Nat := (p.calls[i]?).bind (fun c => (c.phase side).generation)

def counter (p : RoutePair) (side : Side) : Nat := (p.socket side).reconfigureGeneration

theorem taken_eq (h : p.calls[i]? = some c) (side : Side) :
    p.taken side i = (c.phase side).generation := by
  rw [taken, h, Option.bind_some]

theorem halfTaken_iff (h : p.calls[i]? = some c) :
    HalfTaken p.taken i ↔ c.HalfNumbered := by
  unfold HalfTaken ReconfigureCall.HalfNumbered
  simp only [taken_eq h, ← Option.not_isSome_iff_eq_none, Bool.not_eq_true]
  constructor
  · rintro ⟨a, b, ha, hb⟩
    cases a <;> cases b <;> simp_all
  · intro hne
    cases hp : (c.phase .primary).generation.isSome with
    | true =>
      rw [hp] at hne
      exact ⟨.primary, .sibling, hp, by rw [← Bool.not_eq_true]; exact hne.symm⟩
    | false =>
      rw [hp] at hne
      exact ⟨.sibling, .primary, by rw [← Bool.not_eq_false]; exact hne.symm, hp⟩

/-! ## What the steps do to calls and counters -/

theorem calls_setPhase (p : RoutePair) (i : Nat) (side : Side) (phase : CallPhase) (j : Nat) :
    (p.setPhase i side phase).calls[j]? =
      (p.calls[j]?).map (fun c => if i = j then { c with phase := Function.update c.phase side phase } else c) := by
  show (p.calls.modify i _)[j]? = _
  rw [List.getElem?_modify]
  rfl

/-- The phases of a call after one of them has changed. -/
theorem phase_setPhase {j : Nat}
    (h : (p.setPhase i side phase).calls[j]? = some c) :
    ∃ old, p.calls[j]? = some old ∧ c.proxy = old.proxy ∧
      ∀ side', c.phase side' = if j = i ∧ side' = side then phase else old.phase side' := by
  rw [calls_setPhase] at h
  obtain ⟨old, hold, rfl⟩ := Option.map_eq_some_iff.mp h
  refine ⟨old, hold, by split <;> rfl, fun side' => ?_⟩
  by_cases hj : i = j
  · subst hj
    simp only [if_true, true_and]
    by_cases hs : side' = side
    · subst hs
      simp
    · simp [hs]
  · have hne : ¬ (j = i ∧ side' = side) := fun hc => hj hc.1.symm
    rw [if_neg hj, if_neg hne]

theorem taken_setPhase (h : p.calls[i]? = some c) (side : Side) (phase : CallPhase) :
    (p.setPhase i side phase).taken = Function.update p.taken side (Function.update (p.taken side) i phase.generation) := by
  funext side' j
  rw [taken, calls_setPhase]
  by_cases hj : i = j
  · subst hj
    rw [h]
    by_cases hs : side' = side
    · subst hs
      simp
    · simp [hs, taken_eq h]
  · have hne : j ≠ i := fun heq => hj heq.symm
    have hmap : (p.calls[j]?).map (fun c => if i = j then { c with phase := Function.update c.phase side phase } else c) =
        p.calls[j]? := by
      simp [hj]
    rw [hmap]
    by_cases hs : side' = side
    · subst hs
      rw [Function.update_self, Function.update_of_ne hne]
      rfl
    · rw [Function.update_of_ne hs]
      rfl

/-- A phase that keeps the number changes no number. -/
theorem taken_setPhase_same (h : p.calls[i]? = some c)
    (hsame : phase.generation = (c.phase side).generation) : (p.setPhase i side phase).taken = p.taken := by
  rw [taken_setPhase h, hsame, ← taken_eq h, Function.update_eq_self, Function.update_eq_self]

theorem socket_setSocket_self (p : RoutePair) (side : Side) (s : RouteSocket) : (p.setSocket side s).socket side = s :=
  Function.update_self ..

theorem socket_setSocket_other (p : RoutePair) {side' : Side} (s : RouteSocket) (h : side' ≠ side) :
    (p.setSocket side s).socket side' = p.socket side' :=
  Function.update_of_ne h ..

theorem counter_setSocket (p : RoutePair) (side : Side) (s : RouteSocket) :
    (p.setSocket side s).counter = Function.update p.counter side s.reconfigureGeneration := by
  funext side'
  unfold counter
  by_cases hs : side' = side
  · subst hs
    rw [socket_setSocket_self, Function.update_self]
  · rw [socket_setSocket_other p s hs, Function.update_of_ne hs]

theorem counter_setSocket_same
    (h : s.reconfigureGeneration = (p.socket side).reconfigureGeneration) : (p.setSocket side s).counter = p.counter := by
  rw [counter_setSocket, h]
  exact Function.update_eq_self side p.counter

/-! ## The last call -/

/-- The numbers are tickets, and the last call to be numbered has its route standing once it has returned. -/
structure Ordered (p : RoutePair) : Prop where
  tickets : Tickets p.taken p.counter
  settled : ∀ side i c generation route, p.calls[i]? = some c → c.phase side = .returned generation route →
    generation = p.counter side → (p.socket side).builtBy = some i ∧ (p.socket side).outbound = route

/-- What changes neither calls nor counters nor routes keeps the order. -/
theorem Ordered.congr (h : p.Ordered) (hcalls : p'.calls = p.calls) (hcounter : p'.counter = p.counter)
    (hroute : ∀ side, (p'.socket side).builtBy = (p.socket side).builtBy ∧ (p'.socket side).outbound = (p.socket side).outbound) :
    p'.Ordered := by
  constructor
  · have htaken : p'.taken = p.taken := by
      unfold taken
      rw [hcalls]
    rw [htaken, hcounter]
    exact h.tickets
  · intro side i c generation route hc hphase hgen
    rw [hcalls] at hc
    rw [hcounter] at hgen
    rw [(hroute side).1, (hroute side).2]
    exact h.settled side i c generation route hc hphase hgen

/-- A socket that changes only in its registrations keeps the order. -/
theorem Ordered.setSocket (h : p.Ordered)
    (hgen : s.reconfigureGeneration = (p.socket side).reconfigureGeneration) (hbuilt : s.builtBy = (p.socket side).builtBy)
    (hout : s.outbound = (p.socket side).outbound) : (p.setSocket side s).Ordered := by
  refine h.congr rfl (counter_setSocket_same hgen) (fun side' => ?_)
  by_cases hs : side' = side
  · subst hs
    rw [socket_setSocket_self]
    exact ⟨hbuilt, hout⟩
  · rw [socket_setSocket_other p s hs]
    exact ⟨rfl, rfl⟩

theorem Ordered.call (h : p.Ordered) (proxy : Option ProxyConnector) :
    Ordered { p with calls := p.calls ++ [⟨proxy, fun _ => .waiting⟩] } := by
  have htaken : taken { p with calls := p.calls ++ [⟨proxy, fun _ => .waiting⟩] } = p.taken := by
    funext side i
    unfold taken
    rw [List.getElem?_append]
    split
    · rfl
    · rename_i hge
      rw [List.getElem?_eq_none (Nat.le_of_not_lt hge), List.getElem?_singleton]
      split <;> rfl
  refine ⟨by rw [htaken]; exact h.tickets, fun side i c generation route hc hphase hgen => ?_⟩
  refine h.settled side i c generation route ?_ hphase hgen
  rcases getElem?_append_singleton hc with hold | ⟨_, rfl⟩
  · exact hold
  · cases hphase

/-- A call moves on without a new number and without changing a route. -/
theorem Ordered.setPhase (h : p.Ordered) (hc : p.calls[i]? = some c)
    (hsame : phase.generation = (c.phase side).generation)
    (hsettled : ∀ generation route, phase = .returned generation route → generation = p.counter side →
      (p.socket side).builtBy = some i ∧ (p.socket side).outbound = route) : (p.setPhase i side phase).Ordered := by
  refine ⟨by rw [taken_setPhase_same hc hsame]; exact h.tickets, fun side' j c' generation route hc' hphase hgen => ?_⟩
  obtain ⟨old, hold, _, hold'⟩ := phase_setPhase hc'
  rw [hold'] at hphase
  split at hphase
  · rename_i hij
    obtain ⟨rfl, rfl⟩ := hij
    exact hsettled generation route hphase hgen
  · exact h.settled side' j old generation route hold hphase hgen

/-- The new number is the last one, and nobody has returned with it. -/
theorem Ordered.number (h : p.Ordered) (i : Nat) (side : Side)
    (hturn : ∀ j c, j ≠ i → p.calls[j]? = some c → ¬ c.HalfNumbered) : (p.number i side).Ordered := by
  unfold RoutePair.number
  split
  · rename_i c hc
    split
    · rename_i hphase
      have hnew : p.taken side i = none := by rw [taken_eq hc, hphase]; rfl
      have hhalf : ∀ j, j ≠ i → ¬ HalfTaken p.taken j := by
        intro j hj hhalf
        obtain ⟨a, _, ha, _⟩ := id hhalf
        obtain ⟨g, hg⟩ := Option.isSome_iff_exists.mp ha
        obtain ⟨c', hc', _⟩ := Option.bind_eq_some_iff.mp hg
        exact hturn j c' hj hc' ((halfTaken_iff hc').mp hhalf)
      simp only
      generalize hsock : p.setSocket side { p.socket side with reconfigureGeneration := (p.socket side).reconfigureGeneration + 1 } = q
      have hqc : q.calls[i]? = some c := by rw [← hsock]; exact hc
      have hqtaken : q.taken = p.taken := by rw [← hsock]; rfl
      have hqcounter : q.counter = Function.update p.counter side (p.counter side + 1) := by
        rw [← hsock, counter_setSocket]
        rfl
      constructor
      · rw [taken_setPhase hqc, hqtaken]
        show Tickets _ q.counter
        rw [hqcounter]
        exact h.tickets.take hnew hhalf
      · intro side' j c' generation route hc' hphase' hgen
        obtain ⟨old, hold, _, hold'⟩ := phase_setPhase hc'
        rw [← hsock] at hold
        replace hgen : generation = q.counter side' := hgen
        rw [hqcounter] at hgen
        rw [hold'] at hphase'
        split at hphase'
        · cases hphase'
        · have htaken : p.taken side' j = some generation := by
            rw [taken_eq (show p.calls[j]? = some old from hold), hphase']
            rfl
          have hle := h.tickets.le side' j generation htaken
          have hne : side' ≠ side := by
            rintro rfl
            rw [Function.update_self] at hgen
            omega
          rw [Function.update_of_ne hne] at hgen
          show (q.socket side').builtBy = _ ∧ (q.socket side').outbound = _
          rw [← hsock, socket_setSocket_other p _ hne]
          exact h.settled side' j old generation route hold hphase' hgen
    · exact h
  · exact h

theorem Ordered.build (h : p.Ordered) (i : Nat) (side : Side) (bindUdp bindUdpWithBypass : Except String Nat) :
    (p.build i side bindUdp bindUdpWithBypass).Ordered := by
  unfold RoutePair.build
  split
  · rename_i c hc
    split
    · rename_i generation hphase
      exact h.setPhase hc (by rw [hphase]; rfl) nofun
    · exact h
  · exact h

/-- Installing a route keeps the order of the calls. -/
theorem Ordered.apply (h : p.Ordered) (i : Nat) (side : Side) : (p.apply i side).Ordered := by
  unfold RoutePair.apply
  split
  · rename_i c hc
    split
    · rename_i generation route hphase
      have htaken : p.taken side i = some generation := by rw [taken_eq hc, hphase]; rfl
      simp only
      split
      · rename_i hold
        refine h.setPhase hc (by rw [hphase]; rfl) (fun generation' route' heq hgen => ?_)
        cases heq
        exact absurd hgen.symm hold
      · rename_i hlast
        rw [not_not] at hlast
        generalize hq : p.setSocket side ((p.socket side).applyRoute route i) = q
        have hswap : (p.setPhase i side (.returned generation route)).setSocket side ((p.socket side).applyRoute route i) =
            q.setPhase i side (.returned generation route) := by rw [← hq]; rfl
        have hqcounter : q.counter = p.counter := by
          rw [← hq]
          exact counter_setSocket_same rfl
        have hqsocket : q.socket side = (p.socket side).applyRoute route i := by
          rw [← hq]
          exact socket_setSocket_self ..
        rw [hswap]
        have hqtaken : q.taken = p.taken := by rw [← hq]; rfl
        have hqc : q.calls[i]? = some c := by rw [← hq]; exact hc
        have hsame : (CallPhase.returned generation route).generation = (c.phase side).generation := by rw [hphase]; rfl
        refine ⟨?_, fun side' j c' generation' route' hc' hphase' hgen => ?_⟩
        · rw [taken_setPhase_same hqc hsame, hqtaken]
          show Tickets _ q.counter
          rw [hqcounter]
          exact h.tickets
        · obtain ⟨old, hold, _, hold'⟩ := phase_setPhase hc'
          rw [← hq] at hold
          replace hgen : generation' = q.counter side' := hgen
          rw [hqcounter] at hgen
          show (q.socket side').builtBy = _ ∧ (q.socket side').outbound = _
          rw [hold'] at hphase'
          split at hphase'
          · rename_i hij
            obtain ⟨rfl, rfl⟩ := hij
            cases hphase'
            rw [hqsocket]
            exact ⟨rfl, rfl⟩
          · rename_i hij
            have hne : side' ≠ side := by
              rintro rfl
              have htaken' : p.taken side' j = some generation' := by
                rw [taken_eq (show p.calls[j]? = some old from hold), hphase']
                rfl
              have hlast' : generation' = generation := hgen.trans hlast
              rw [hlast'] at htaken'
              exact hij ⟨h.tickets.unique side' j i generation htaken' htaken, rfl⟩
            rw [← hq, socket_setSocket_other p _ hne]
            exact h.settled side' j old generation' route' hold hphase' hgen
    · exact h
  · exact h

theorem Ordered.dial (h : p.Ordered) (n : Nat) (random : UInt16) : (p.dial n random).Ordered := by
  unfold RoutePair.dial
  split
  · exact h
  rename_i side remote _
  simp only
  split
  · exact h.congr rfl rfl (fun _ => ⟨rfl, rfl⟩)
  rename_i id _
  split
  · refine Ordered.setSocket ?_ rfl rfl rfl
    exact h.congr rfl rfl (fun _ => ⟨rfl, rfl⟩)
  · have hsocket : (p.setSocket side ((p.socket side).register remote id p.nextToken)).Ordered := h.setSocket rfl rfl rfl
    exact hsocket.congr rfl rfl (fun _ => ⟨rfl, rfl⟩)

theorem Ordered.openInbound (h : p.Ordered) (side : Side) (key : ConnKey) : (p.openInbound side key).Ordered := by
  unfold RoutePair.openInbound
  simp only
  split
  · exact h
  · have hsocket : (p.setSocket side { p.socket side with registry := (p.socket side).registry.insert key p.nextToken }).Ordered :=
      h.setSocket rfl rfl rfl
    exact hsocket.congr rfl rfl (fun _ => ⟨rfl, rfl⟩)

/-- The order is kept while the calls take their numbers in turn. -/
theorem Ordered.run (h : p.Ordered) {op : RouteOp} (hturn : op.InTurn p) : (op.run p).Ordered := by
  cases op with
  | call proxy => exact h.call proxy
  | number i side => exact h.number i side hturn
  | build i side bindUdp bindUdpWithBypass => exact h.build i side bindUdp bindUdpWithBypass
  | apply i side => exact h.apply i side
  | connect remote => exact h.congr rfl rfl (fun _ => ⟨rfl, rfl⟩)
  | dial n random => exact h.dial n random
  | openInbound side key => exact h.openInbound side key
  | unregister side key token => exact h.setSocket rfl rfl rfl
  | unregisterProxy side id token => exact h.setSocket rfl rfl rfl

/-! ## What a route is built from -/

/-- Every route was built from the setting of its call. -/
def FromSetting (p : RoutePair) : Prop :=
  ∀ (i : Nat) (c : ReconfigureCall) (side : Side) (route : OutboundRoute), p.calls[i]? = some c → (c.phase side).route = some route →
    ∃ bindUdp bindUdpWithBypass, route = buildOutboundRoute c.proxy bindUdp bindUdpWithBypass

theorem FromSetting.setPhase (h : p.FromSetting) (hc : p.calls[i]? = some c)
    (hroute : ∀ route, phase.route = some route →
      ∃ bindUdp bindUdpWithBypass, route = buildOutboundRoute c.proxy bindUdp bindUdpWithBypass) :
    (p.setPhase i side phase).FromSetting := by
  intro j c' side' route hc' hr
  obtain ⟨old, hold, hproxy, hphase⟩ := phase_setPhase hc'
  rw [hphase] at hr
  rw [hproxy]
  split at hr
  · rename_i hij
    obtain ⟨rfl, rfl⟩ := hij
    obtain rfl := Option.some.inj (hc.symm.trans hold)
    exact hroute route hr
  · exact h j old side' route hold hr

theorem FromSetting.congr (h : p.FromSetting) (hcalls : p'.calls = p.calls) : p'.FromSetting := by
  unfold FromSetting
  rw [hcalls]
  exact h

theorem FromSetting.run (h : p.FromSetting) (op : RouteOp) : (op.run p).FromSetting := by
  cases op with
  | call proxy =>
    intro i c side route hc hroute
    rcases getElem?_append_singleton hc with hold | ⟨_, rfl⟩
    · exact h i c side route hold hroute
    · cases hroute
  | number i side =>
    show (p.number i side).FromSetting
    unfold RoutePair.number
    split
    · rename_i c hc
      split
      · have hsocket : (p.setSocket side
            { p.socket side with reconfigureGeneration := (p.socket side).reconfigureGeneration + 1 }).FromSetting := h.congr rfl
        exact hsocket.setPhase hc nofun
      · exact h
    · exact h
  | build i side bindUdp bindUdpWithBypass =>
    show (p.build i side bindUdp bindUdpWithBypass).FromSetting
    unfold RoutePair.build
    split
    · rename_i c hc
      split
      · refine h.setPhase hc (fun route hroute => ⟨bindUdp, bindUdpWithBypass, ?_⟩)
        exact (Option.some.inj hroute).symm
      · exact h
    · exact h
  | apply i side =>
    show (p.apply i side).FromSetting
    unfold RoutePair.apply
    split
    · rename_i c hc
      split
      · rename_i generation route hphase
        have hmoved : (p.setPhase i side (.returned generation route)).FromSetting := by
          refine h.setPhase hc (fun route' hroute => h i c side route' hc ?_)
          rw [hphase]
          exact hroute
        simp only
        split
        · exact hmoved
        · exact hmoved.congr rfl
      · exact h
    · exact h
  | connect remote => exact h.congr rfl
  | dial n random =>
    show (p.dial n random).FromSetting
    unfold RoutePair.dial
    split
    · exact h
    simp only
    split
    · exact h.congr rfl
    split
    · exact h.congr rfl
    · exact h.congr rfl
  | openInbound side key =>
    show (p.openInbound side key).FromSetting
    unfold RoutePair.openInbound
    simp only
    split
    · exact h
    · exact h.congr rfl
  | unregister side key token => exact h.congr rfl
  | unregisterProxy side id token => exact h.congr rfl

/-! ## Registrations -/

/-- A registration of a proxied dial is beside its entry in the map of the route it was dialled over, which still stands. -/
def ProxyRegistered (s : RouteSocket) (d : Dialled) (key : ConnKey) : Prop :=
  (∃ c ∈ s.proxyRegistry, c.key = key ∧ c.token = d.token) ∧ d.builtBy = s.builtBy ∧ d.route = s.outbound

/-- What holds of the registrations, and of the dials that got a transport. -/
structure Linked (p : RoutePair) : Prop where
  tokens : ∀ side key token, (p.socket side).registry key = some token → token < p.nextToken
  fresh : ∀ d ∈ p.dials, d.token < p.nextToken
  proxied : ∀ d ∈ p.dials, ∀ association, d.transport = .proxy association → ∀ side key,
    (p.socket side).registry key = some d.token → side = d.side ∧ ProxyRegistered (p.socket side) d key
  sent : ∀ d ∈ p.dials, d.transport = .direct →
    d.route = .direct ∨ ∃ error bypass, d.route = .blocked error bypass ∧ bypass.matchesHostPort d.remote = true

/-- A step that changes one socket, and makes no dial, keeps what holds if it does for the registrations there. -/
theorem Linked.setSocket (h : p.Linked) {n : Nat} (hn : p.nextToken ≤ n)
    (htokens : ∀ key token, s.registry key = some token → token < n)
    (hs : ∀ d ∈ p.dials, ∀ association, d.transport = .proxy association → ∀ key, s.registry key = some d.token →
      side = d.side ∧ ProxyRegistered s d key) : Linked { p.setSocket side s with nextToken := n } := by
  refine ⟨fun side' key token hkey => ?_, fun d hd => Nat.lt_of_lt_of_le (h.fresh d hd) hn,
    fun d hd association hproxy side' key hkey => ?_, h.sent⟩
  · replace hkey : ((p.setSocket side s).socket side').registry key = some token := hkey
    by_cases hside : side' = side
    · subst hside
      rw [socket_setSocket_self] at hkey
      exact htokens key token hkey
    · rw [socket_setSocket_other p s hside] at hkey
      exact Nat.lt_of_lt_of_le (h.tokens side' key token hkey) hn
  · replace hkey : ((p.setSocket side s).socket side').registry key = some d.token := hkey
    show side' = d.side ∧ ProxyRegistered ((p.setSocket side s).socket side') d key
    by_cases hside : side' = side
    · subst hside
      rw [socket_setSocket_self] at hkey ⊢
      exact hs d hd association hproxy key hkey
    · rw [socket_setSocket_other p s hside] at hkey ⊢
      exact h.proxied d hd association hproxy side' key hkey

/-- What changes neither sockets nor dials keeps what holds. -/
theorem Linked.congr (h : p.Linked) (hsocket : p'.socket = p.socket) (hdials : p'.dials = p.dials)
    (htoken : p'.nextToken = p.nextToken) : p'.Linked := by
  constructor
  · rw [hsocket, htoken]
    exact h.tokens
  · rw [hdials, htoken]
    exact h.fresh
  · rw [hsocket, hdials]
    exact h.proxied
  · rw [hdials]
    exact h.sent

/-- What the clearing of a proxy route leaves is none of its connections. -/
theorem foldl_remove_some {proxyRegistry : List ProxyConnRegistration} {registry : ConnRegistry} {token : Nat}
    (h : proxyRegistry.foldl (fun registry c => removeConnectionRegistration registry c.key c.token) registry key = some token) :
    registry key = some token ∧ ∀ c ∈ proxyRegistry, ¬ (c.key = key ∧ c.token = token) := by
  induction proxyRegistry generalizing registry with
  | nil => exact ⟨h, nofun⟩
  | cons c rest ih =>
    obtain ⟨hkey, hrest⟩ := ih h
    obtain ⟨hold, hne⟩ := removeConnectionRegistration_some hkey
    refine ⟨hold, fun c' hc' => ?_⟩
    rcases List.mem_cons.mp hc' with rfl | hmem
    · exact fun hc => hne ⟨hc.1.symm, hc.2.symm⟩
    · exact hrest c' hmem

/-- Installing a route drops the connections over the one before it. -/
theorem Linked.apply (h : p.Linked) (i : Nat) (side : Side) : (p.apply i side).Linked := by
  unfold RoutePair.apply
  split
  · split
    · rename_i generation route _
      have hphase : (p.setPhase i side (.returned generation route)).Linked := h.congr rfl rfl rfl
      simp only
      split
      · exact hphase
      · refine hphase.setSocket (Nat.le_refl _) (fun key token hkey => h.tokens side key token (foldl_remove_some hkey).1)
          (fun d hd association hproxy key hkey => ?_)
        obtain ⟨hold, hnone⟩ := foldl_remove_some hkey
        obtain ⟨_, ⟨c, hc, hck⟩, _⟩ := h.proxied d hd association hproxy side key hold
        exact absurd hck (hnone c hc)
    · exact h
  · exact h

theorem Linked.number (h : p.Linked) (i : Nat) (side : Side) : (p.number i side).Linked := by
  unfold RoutePair.number
  split
  · split
    · have hsocket : (p.setSocket side { p.socket side with reconfigureGeneration := (p.socket side).reconfigureGeneration + 1 }).Linked :=
        h.setSocket (Nat.le_refl _) (h.tokens side)
          (fun d hd association hproxy key hkey => h.proxied d hd association hproxy side key hkey)
      exact hsocket.congr rfl rfl rfl
    · exact h
  · exact h

theorem Linked.build (h : p.Linked) (i : Nat) (side : Side) (bindUdp bindUdpWithBypass : Except String Nat) :
    (p.build i side bindUdp bindUdpWithBypass).Linked := by
  unfold RoutePair.build
  split
  · split
    · exact h.congr rfl rfl rfl
    · exact h
  · exact h

/-- A registration under a new token. -/
theorem Linked.tokens_insert (h : p.Linked) (side : Side) {key' : ConnKey} {token : Nat}
    (hkey : (p.socket side).registry.insert key p.nextToken key' = some token) : token < p.nextToken + 1 := by
  rcases insert_some hkey with ⟨_, rfl⟩ | hold
  · exact Nat.lt_succ_self _
  · exact Nat.lt_trans (h.tokens side key' token hold) (Nat.lt_succ_self _)

theorem Linked.openInbound (h : p.Linked) (side : Side) (key : ConnKey) : (p.openInbound side key).Linked := by
  unfold RoutePair.openInbound
  simp only
  split
  · exact h
  · refine h.setSocket (Nat.le_succ _) (fun key' token hkey => h.tokens_insert side hkey) (fun d hd association hproxy key' hkey => ?_)
    rcases insert_some hkey with ⟨_, htoken⟩ | hold
    · exact absurd (h.fresh d hd) (by omega)
    · exact h.proxied d hd association hproxy side key' hold

theorem Linked.unregister (h : p.Linked) (side : Side) (key : ConnKey) (token : Nat) :
    (p.unregister side key token).Linked := by
  refine h.setSocket (Nat.le_refl _) (fun key' token' hkey => h.tokens side key' token' (removeConnectionRegistration_some hkey).1)
    (fun d hd association hproxy key' hkey => ?_)
  exact h.proxied d hd association hproxy side key' (removeConnectionRegistration_some hkey).1

theorem Linked.unregisterProxy (h : p.Linked) (side : Side) (id : UInt16) (token : Nat)
    (hgone : ∀ key, (p.socket side).registry key ≠ some token) : (p.unregisterProxy side id token).Linked := by
  refine h.setSocket (Nat.le_refl _) (h.tokens side) (fun d hd association hproxy key hkey => ?_)
  obtain ⟨hside, ⟨c, hc, hck, hct⟩, hroute⟩ := h.proxied d hd association hproxy side key hkey
  refine ⟨hside, ⟨c, List.mem_filter.mpr ⟨hc, ?_⟩, hck, hct⟩, hroute⟩
  have hne : c.token ≠ token := by
    rintro rfl
    rw [← hct] at hkey
    exact hgone key hkey
  simp [hne]

/-- The transport of a dial follows from the route it reads. -/
theorem transport_direct {remote : SocketAddr} (h : s.transport remote = some .direct) :
    s.outbound = .direct ∨ ∃ error bypass, s.outbound = .blocked error bypass ∧ bypass.matchesHostPort remote = true := by
  unfold RouteSocket.transport at h
  split at h
  · rename_i hroute
    exact .inl hroute
  · cases h
  · rename_i error bypass hroute
    split at h
    · rename_i hmatch
      exact .inr ⟨error, bypass, hroute, hmatch⟩
    · cases h

theorem usesProxy_of_transport {remote : SocketAddr} {association : Nat}
    (h : s.transport remote = some (.proxy association)) : s.usesProxy = true := by
  unfold RouteSocket.transport at h
  unfold RouteSocket.usesProxy
  split at h
  · cases h
  · rename_i hroute
    rw [hroute]
  · split at h <;> cases h

/-- A registration under a new token leaves those of the dials before it. -/
theorem Linked.register (h : p.Linked) (side : Side) (remote : SocketAddr) (id : UInt16) {d : Dialled} (hd : d ∈ p.dials)
    {association : Nat} (hproxy : d.transport = .proxy association)
    (hkey : ((p.socket side).register remote id p.nextToken).registry key = some d.token) :
    side = d.side ∧ ProxyRegistered ((p.socket side).register remote id p.nextToken) d key := by
  rcases insert_some hkey with ⟨_, htoken⟩ | hold
  · exact absurd (h.fresh d hd) (by omega)
  · obtain ⟨hside, ⟨c, hc, hck⟩, hroute⟩ := h.proxied d hd association hproxy side key hold
    refine ⟨hside, ⟨c, ?_, hck⟩, hroute⟩
    unfold RouteSocket.register
    simp only
    split
    · exact List.mem_cons_of_mem _ hc
    · exact hc

theorem Linked.dial (h : p.Linked) (n : Nat) (random : UInt16) : (p.dial n random).Linked := by
  unfold RoutePair.dial
  split
  · exact h
  rename_i side remote _
  simp only
  split
  · exact h.congr rfl rfl rfl
  rename_i id _
  split
  · -- the route is blocked: the registration is taken back
    have hsocket : Linked { p.setSocket side (((p.socket side).register remote id p.nextToken).deregister remote id p.nextToken) with
        nextToken := p.nextToken + 1 } := by
      refine h.setSocket (Nat.le_succ _)
        (fun key token hkey => h.tokens_insert side (removeConnectionRegistration_some hkey).1)
        (fun d hd association hproxy key hkey => ?_)
      obtain ⟨hside, ⟨c, hc, hck, hct⟩, hroute⟩ := h.register side remote id hd hproxy (removeConnectionRegistration_some hkey).1
      refine ⟨hside, ⟨c, List.mem_filter.mpr ⟨hc, ?_⟩, hck, hct⟩, hroute⟩
      have hlt := h.fresh d hd
      have hne : c.token ≠ p.nextToken := by omega
      simp [hne]
    exact hsocket.congr rfl rfl rfl
  · rename_i transport htransport
    have hsocket : Linked { p.setSocket side ((p.socket side).register remote id p.nextToken) with nextToken := p.nextToken + 1 } :=
      h.setSocket (Nat.le_succ _) (fun key token hkey => h.tokens_insert side hkey)
        (fun d hd association hproxy key hkey => h.register side remote id hd hproxy hkey)
    refine ⟨hsocket.tokens, fun d hd => ?_, fun d hd association hproxy side' key hkey => ?_, fun d hd hdirect => ?_⟩
    · rcases List.mem_cons.mp hd with rfl | hold
      · exact Nat.lt_succ_self _
      · exact Nat.lt_trans (h.fresh d hold) (Nat.lt_succ_self _)
    · rcases List.mem_cons.mp hd with rfl | hold
      · -- the new token is registered once, with its entry in the map of the route
        simp only at hproxy
        rw [hproxy] at htransport
        have huses := usesProxy_of_transport htransport
        replace hkey : ((p.setSocket side ((p.socket side).register remote id p.nextToken)).socket side').registry key =
          some p.nextToken := hkey
        by_cases hside : side' = side
        · subst hside
          refine ⟨rfl, ?_⟩
          show ProxyRegistered ((p.setSocket side' ((p.socket side').register remote id p.nextToken)).socket side') _ key
          rw [socket_setSocket_self] at hkey ⊢
          refine ⟨⟨⟨id, (remote, id), p.nextToken⟩, ?_, ?_, rfl⟩, rfl, rfl⟩
          · unfold RouteSocket.register
            simp only
            rw [if_pos huses]
            exact List.mem_cons_self ..
          · rcases insert_some hkey with ⟨hk, _⟩ | hold
            · exact hk.symm
            · exact absurd (h.tokens side' key p.nextToken hold) (Nat.lt_irrefl _)
        · rw [socket_setSocket_other p _ hside] at hkey
          exact absurd (h.tokens side' key p.nextToken hkey) (Nat.lt_irrefl _)
      · exact hsocket.proxied d hold association hproxy side' key hkey
    · rcases List.mem_cons.mp hd with rfl | hold
      · simp only at hdirect
        rw [hdirect] at htransport
        exact transport_direct htransport
      · exact h.sent d hold hdirect

theorem Linked.run (h : p.Linked) {op : RouteOp} (hpossible : op.Possible p) : (op.run p).Linked := by
  cases op with
  | call proxy => exact h.congr rfl rfl rfl
  | number i side => exact h.number i side
  | build i side bindUdp bindUdpWithBypass => exact h.build i side bindUdp bindUdpWithBypass
  | apply i side => exact h.apply i side
  | connect remote => exact h.congr rfl rfl rfl
  | dial n random => exact h.dial n random
  | openInbound side key => exact h.openInbound side key
  | unregister side key token => exact h.unregister side key token
  | unregisterProxy side id token => exact h.unregisterProxy side id token hpossible

end RoutePair

end Risuko
