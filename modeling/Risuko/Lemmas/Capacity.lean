import Risuko.Lib.Lists
import Risuko.Usenet.Capacity

/-!
# Tickets and signals

A step registers a call or is one of seven moves of a call (`step_cases`). While no ticket is drawn twice, the call of a ticket is the one
at its place in the list, and where the call is says where its ticket is (`Placed`). A move that changes the tickets leaves its call with a
signal to send, and a refused attempt finds a ticket that cannot be promoted, so a waiter that missed a change has a signal to come
(`Heard`).
-/

namespace Risuko

namespace Usenet

namespace ProviderConnectionGateState

/-! ## Promotions -/

/-- What a promotion found: the ticket waits first, and there is room below every limit. -/
theorem tryPromote_eq_some {s s' : ProviderConnectionGateState} {ticket : ℕ} (h : s.tryPromote ticket = some s') :
    ∃ snapshotLimit limit, s.waiting.first? = some (ticket, snapshotLimit) ∧ s.limits.min? = some limit ∧ s.leased.size < limit ∧
      s' = { s with waiting := s.waiting.erase ticket, leased := s.leased.insert ticket snapshotLimit } := by
  unfold tryPromote at h
  split at h
  · cases h
  · rename_i first snapshotLimit hfirst
    by_cases hticket : first ≠ ticket
    · rw [if_pos hticket] at h
      cases h
    · obtain rfl := not_not.mp hticket
      rw [if_neg hticket] at h
      obtain ⟨limit, hlimit, h⟩ := Option.bind_eq_some_iff.mp h
      by_cases hfull : limit ≤ s.leased.size
      · rw [if_pos hfull] at h
        cases h
      · rw [if_neg hfull] at h
        cases h
        exact ⟨snapshotLimit, limit, hfirst, hlimit, Nat.lt_of_not_le hfull, rfl⟩

/-- The first ticket is the lowest. -/
theorem isLeast_first {s : ProviderConnectionGateState} {ticket limit : ℕ} (h : s.waiting.first? = some (ticket, limit)) :
    IsLeast { t | t ∈ s.waiting.keys } ticket := by
  refine ⟨OrdMap.mem_keys.mpr ⟨limit, OrdMap.get?_of_first? h⟩, ?_⟩
  intro t ht
  obtain ⟨rest, hrest⟩ := List.head?_eq_some_iff.mp h
  have hsorted := s.waiting.sorted
  rw [hrest] at hsorted
  obtain ⟨e, he, rfl⟩ := List.mem_map.mp ht
  rw [hrest] at he
  rcases List.mem_cons.mp he with rfl | he
  · exact le_rfl
  · exact (OrdMap.lt_of_sorted_cons hsorted e he).le

end ProviderConnectionGateState

theorem AcquirePhase.isLeased_of_isWaiting {phase : AcquirePhase} (h : phase.isWaiting = true) : phase.isLeased = false := by
  cases phase with
  | registered | subscribing | attempting | refused => rfl
  | promoted | leased | leaving | ended => cases h

namespace ProviderConnectionGate

variable {s s' : ProviderConnectionGate} {i sent : ℕ} {c c' : AcquireCall} {a : Action}
variable {state : ProviderConnectionGateState}

/-! ## The moves of a call -/

/-- A move of a call: what it becomes, and the tickets and the number of signals then. -/
inductive CallMove (s : ProviderConnectionGate) (c : AcquireCall) : AcquireCall → ProviderConnectionGateState → ℕ → Prop where
  | signal (phase : AcquirePhase) (howes : c.phase.owesSignal = true) (hrefused : phase ≠ .refused)
      (hwaiting : phase.isWaiting = c.phase.isWaiting) (hleased : phase.isLeased = c.phase.isLeased) :
      CallMove s c { c with phase := phase } s.state (s.sent + 1)
  | listen (hwaiting : c.phase.isWaiting = true) (hleased : c.phase.isLeased = false) (howes : c.phase.owesSignal = false) :
      CallMove s c { c with phase := .attempting, seen := s.sent } s.state s.sent
  | refused (hphase : c.phase = .attempting) (hnone : s.state.tryPromote c.ticket = none) :
      CallMove s c { c with phase := .refused, failedAt := some s.sent } s.state s.sent
  | promoted (hphase : c.phase = .attempting) (state : ProviderConnectionGateState) (hsome : s.state.tryPromote c.ticket = some state) :
      CallMove s c { c with phase := .promoted } state s.sent
  | cancelled (hphase : c.phase = .refused) :
      CallMove s c { c with phase := .leaving } { s.state with waiting := s.state.waiting.erase c.ticket } s.sent
  | released (hphase : c.phase = .leased) :
      CallMove s c { c with phase := .leaving } { s.state with leased := s.state.leased.erase c.ticket } s.sent
  /-- The ticket was not there. -/
  | gone (howes : c.phase.owesSignal = false) (hwaiting : c.phase.isWaiting = true → c.ticket ∉ s.state.waiting.keys)
      (hleased : c.phase.isLeased = true → c.ticket ∉ s.state.leased.keys) : CallMove s c { c with phase := .ended } s.state s.sent

/-- A call that leaves with a ticket which was there, or was not. -/
theorem callMove_leave :
    (c.phase = .refused →
      ∃ c' state, CallMove s c c' state s.sent ∧
        s.leave i c (s.state.cancelWaiter c.ticket) = ⟨state, s.sent, s.calls.set i c'⟩) ∧
    (c.phase = .leased →
      ∃ c' state, CallMove s c c' state s.sent ∧ s.leave i c (s.state.release c.ticket) = ⟨state, s.sent, s.calls.set i c'⟩) := by
  have hkeys : ∀ m : OrdMap ℕ ℕ, m.contains c.ticket = false → c.ticket ∉ m.keys ∧ m.erase c.ticket = m := by
    intro m hm
    have hnone : m.get? c.ticket = none := Option.isNone_iff_eq_none.mp (by simpa [OrdMap.contains] using hm)
    refine ⟨?_, OrdMap.erase_of_get?_none m hnone⟩
    intro hmem
    obtain ⟨v, hv⟩ := OrdMap.mem_keys.mp hmem
    rw [hnone] at hv
    cases hv
  constructor
  · intro hphase
    cases hc : s.state.waiting.contains c.ticket with
    | true => exact ⟨_, _, .cancelled hphase, by simp [leave, ProviderConnectionGateState.cancelWaiter, hc]⟩
    | false =>
      obtain ⟨hnot, herase⟩ := hkeys _ hc
      refine ⟨_, _, .gone (by simp [hphase, AcquirePhase.owesSignal]) (fun _ => hnot) ?_, ?_⟩
      · simp [hphase, AcquirePhase.isLeased]
      · simp [leave, ProviderConnectionGateState.cancelWaiter, hc, herase]
  · intro hphase
    cases hc : s.state.leased.contains c.ticket with
    | true => exact ⟨_, _, .released hphase, by simp [leave, ProviderConnectionGateState.release, hc]⟩
    | false =>
      obtain ⟨hnot, herase⟩ := hkeys _ hc
      refine ⟨_, _, .gone (by simp [hphase, AcquirePhase.owesSignal]) ?_ (fun _ => hnot), ?_⟩
      · simp [hphase, AcquirePhase.isWaiting]
      · simp [leave, ProviderConnectionGateState.release, hc, herase]

theorem callStep_cases (h : s.callStep i c a = some s') :
    ∃ c' state sent, CallMove s c c' state sent ∧ s' = ⟨state, sent, s.calls.set i c'⟩ := by
  unfold callStep at h
  split at h
  · unfold signal at h
    split at h
    · rename_i hphase
      cases h
      refine ⟨_, _, _, .signal (if c.waits then .subscribing else .attempting) ?_ ?_ ?_ ?_, rfl⟩ <;>
        cases c.waits <;> simp [hphase, AcquirePhase.owesSignal, AcquirePhase.isWaiting, AcquirePhase.isLeased]
    · rename_i hphase
      cases h
      refine ⟨_, _, _, .signal .leased ?_ ?_ ?_ ?_, rfl⟩ <;>
        simp [hphase, AcquirePhase.owesSignal, AcquirePhase.isWaiting, AcquirePhase.isLeased]
    · rename_i hphase
      cases h
      refine ⟨_, _, _, .signal .ended ?_ ?_ ?_ ?_, rfl⟩ <;>
        simp [hphase, AcquirePhase.owesSignal, AcquirePhase.isWaiting, AcquirePhase.isLeased]
    · cases h
  · rename_i hphase
    cases h
    refine ⟨_, _, _, .listen ?_ ?_ ?_, rfl⟩ <;>
      simp [hphase, AcquirePhase.owesSignal, AcquirePhase.isWaiting, AcquirePhase.isLeased]
  · rename_i hphase
    cases h
    cases hp : s.state.tryPromote c.ticket with
    | none => exact ⟨_, _, _, .refused hphase hp, by simp [attempt, hp, setCall]⟩
    | some state => exact ⟨_, _, _, .promoted hphase state hp, by simp [attempt, hp]⟩
  · rename_i hphase
    split at h
    · cases h
      refine ⟨_, _, _, .listen ?_ ?_ ?_, rfl⟩ <;>
        simp [hphase, AcquirePhase.owesSignal, AcquirePhase.isWaiting, AcquirePhase.isLeased]
    · cases h
  · rename_i hphase
    cases h
    obtain ⟨c', state, hmove, heq⟩ := callMove_leave.1 hphase
    exact ⟨c', state, _, hmove, heq⟩
  · rename_i hphase
    cases h
    obtain ⟨c', state, hmove, heq⟩ := callMove_leave.2 hphase
    exact ⟨c', state, _, hmove, heq⟩
  · cases h

/-- A step registers a call, or is a move of one. -/
theorem step_cases (h : s.step a = some s') :
    (∃ limit waits, s' = ⟨(s.state.registerWaiter limit).2, s.sent, s.calls ++ [⟨s.state.nextTicket, waits, .registered, 0, none⟩]⟩) ∨
      ∃ i c c' state sent, s.calls[i]? = some c ∧ CallMove s c c' state sent ∧ s' = ⟨state, sent, s.calls.set i c'⟩ := by
  have hcall : ∀ i, (s.calls[i]?.bind fun c => s.callStep i c a) = some s' →
      ∃ i c c' state sent, s.calls[i]? = some c ∧ CallMove s c c' state sent ∧ s' = ⟨state, sent, s.calls.set i c'⟩ := by
    intro i hi
    obtain ⟨c, hc, hstep⟩ := Option.bind_eq_some_iff.mp hi
    obtain ⟨c', state, sent, hmove, heq⟩ := callStep_cases hstep
    exact ⟨i, c, c', state, sent, hc, hmove, heq⟩
  cases a with
  | register limit waits =>
    cases h
    exact .inl ⟨limit, waits, rfl⟩
  | signal i => exact .inr (hcall i h)
  | subscribe i => exact .inr (hcall i h)
  | attempt i => exact .inr (hcall i h)
  | wake i => exact .inr (hcall i h)
  | drop i => exact .inr (hcall i h)

theorem length_calls_step (h : s.step a = some s') : s.calls.length ≤ s'.calls.length := by
  rcases step_cases h with ⟨_, _, rfl⟩ | ⟨_, _, _, _, _, _, _, rfl⟩
  · simp
  · simp

/-! ## Where the tickets are -/

/-- While no ticket is drawn twice: the call of a ticket is the one at its place, and a ticket is where its call says. -/
structure Placed (s : ProviderConnectionGate) : Prop where
  next : s.state.nextTicket = s.calls.length % 2 ^ 64
  tickets : ∀ (i : ℕ) (c : AcquireCall), s.calls[i]? = some c → c.ticket = i
  waiting : ∀ t ∈ s.state.waiting.keys, ∃ c : AcquireCall, s.calls[t]? = some c ∧ c.phase.isWaiting = true
  leased : ∀ t ∈ s.state.leased.keys, ∃ c : AcquireCall, s.calls[t]? = some c ∧ c.phase.isLeased = true

theorem mem_keys_insert {m : OrdMap ℕ ℕ} {t k v : ℕ} : t ∈ (m.insert k v).keys ↔ t = k ∨ t ∈ m.keys := by
  simp only [OrdMap.mem_keys, OrdMap.get?_insert]
  by_cases h : t = k
  · simp [h]
  · simp [h]

theorem mem_keys_erase {m : OrdMap ℕ ℕ} {t k : ℕ} : t ∈ (m.erase k).keys ↔ t ≠ k ∧ t ∈ m.keys := by
  simp only [OrdMap.mem_keys, OrdMap.get?_erase]
  by_cases h : t = k
  · simp [h]
  · simp [h]

theorem placed_new : Placed new where
  next := rfl
  tickets i c h := by simp [new] at h
  waiting t h := by simp [new, OrdMap.keys, OrdMap.empty] at h
  leased t h := by simp [new, OrdMap.keys, OrdMap.empty] at h

theorem Placed.register (h : Placed s) (limit : ℕ) (waits : Bool) (hlt : s.calls.length < 2 ^ 64) :
    Placed ⟨(s.state.registerWaiter limit).2, s.sent, s.calls ++ [⟨s.state.nextTicket, waits, .registered, 0, none⟩]⟩ := by
  have hnext : s.state.nextTicket = s.calls.length := by rw [h.next, Nat.mod_eq_of_lt hlt]
  have hold : ∀ {t : ℕ} {c : AcquireCall} (x : AcquireCall), s.calls[t]? = some c → (s.calls ++ [x])[t]? = some c := by
    intro t c x hc
    rw [List.getElem?_append_left (List.getElem?_eq_some_iff.mp hc).1]
    exact hc
  constructor
  · simp only [ProviderConnectionGateState.registerWaiter, List.length_append, List.length_singleton, hnext]
  · intro i c hc
    rcases getElem?_append_singleton hc with hc | ⟨rfl, rfl⟩
    · exact h.tickets i c hc
    · exact hnext
  · intro t ht
    rcases mem_keys_insert.mp ht with rfl | ht
    · refine ⟨⟨s.state.nextTicket, waits, .registered, 0, none⟩, ?_, rfl⟩
      rw [hnext]
      exact List.getElem?_concat_length
    · obtain ⟨c, hc, hphase⟩ := h.waiting t ht
      exact ⟨c, hold _ hc, hphase⟩
  · intro t ht
    obtain ⟨c, hc, hphase⟩ := h.leased t ht
    exact ⟨c, hold _ hc, hphase⟩

/-- A move takes its ticket to where its call goes, and leaves the others. -/
theorem CallMove.keys
    (hmove : CallMove s c c' state sent) :
    c'.ticket = c.ticket ∧ state.nextTicket = s.state.nextTicket ∧
      (∀ t ∈ state.waiting.keys, t ∈ s.state.waiting.keys ∧ (t = c.ticket → c.phase.isWaiting = true → c'.phase.isWaiting = true)) ∧
      ∀ t ∈ state.leased.keys, (t = c.ticket ∧ c'.phase.isLeased = true) ∨
        t ∈ s.state.leased.keys ∧ (t = c.ticket → c.phase.isLeased = true → c'.phase.isLeased = true) := by
  cases hmove with
  | signal phase howes hrefused hwaiting hleased =>
    exact ⟨rfl, rfl, fun t ht => ⟨ht, fun _ hw => hwaiting.trans hw⟩, fun t ht => .inr ⟨ht, fun _ hl => hleased.trans hl⟩⟩
  | listen hwaiting hleased howes =>
    exact ⟨rfl, rfl, fun t ht => ⟨ht, fun _ _ => rfl⟩, fun t ht => .inr ⟨ht, fun _ hl => by rw [hleased] at hl; cases hl⟩⟩
  | refused hphase hnone =>
    exact ⟨rfl, rfl, fun t ht => ⟨ht, fun _ _ => rfl⟩, fun t ht => .inr ⟨ht, fun _ hl => by rw [hphase] at hl; cases hl⟩⟩
  | promoted hphase state hsome =>
    obtain ⟨snapshotLimit, limit, -, -, -, rfl⟩ := ProviderConnectionGateState.tryPromote_eq_some hsome
    refine ⟨rfl, rfl, fun t ht => ⟨(mem_keys_erase.mp ht).2, fun he => absurd he (mem_keys_erase.mp ht).1⟩, fun t ht => ?_⟩
    rcases mem_keys_insert.mp ht with rfl | ht
    · exact .inl ⟨rfl, rfl⟩
    · exact .inr ⟨ht, fun _ _ => rfl⟩
  | cancelled hphase =>
    exact ⟨rfl, rfl, fun t ht => ⟨(mem_keys_erase.mp ht).2, fun he => absurd he (mem_keys_erase.mp ht).1⟩,
      fun t ht => .inr ⟨ht, fun _ hl => by rw [hphase] at hl; cases hl⟩⟩
  | released hphase =>
    exact ⟨rfl, rfl, fun t ht => ⟨ht, fun _ hw => by rw [hphase] at hw; cases hw⟩,
      fun t ht => .inr ⟨(mem_keys_erase.mp ht).2, fun he => absurd he (mem_keys_erase.mp ht).1⟩⟩
  | gone howes hwaiting hleased =>
    exact ⟨rfl, rfl, fun t ht => ⟨ht, fun he hw => absurd (he ▸ ht) (hwaiting hw)⟩,
      fun t ht => .inr ⟨ht, fun he hl => absurd (he ▸ ht) (hleased hl)⟩⟩

theorem Placed.move (h : Placed s)
    (hc : s.calls[i]? = some c) (hmove : CallMove s c c' state sent) : Placed ⟨state, sent, s.calls.set i c'⟩ := by
  obtain ⟨hticket, hnext, hwaiting, hleased⟩ := hmove.keys
  have hi := h.tickets i c hc
  have hself : (s.calls.set i c')[i]? = some c' := by
    rw [List.getElem?_set_self (List.getElem?_eq_some_iff.mp hc).1]
  constructor
  · simp only [hnext, h.next, List.length_set]
  · intro j d hd
    by_cases hj : i = j
    · subst hj
      rw [hself] at hd
      cases hd
      exact hticket.trans hi
    · rw [List.getElem?_set_ne hj] at hd
      exact h.tickets j d hd
  · intro t ht
    obtain ⟨hold, hgo⟩ := hwaiting t ht
    obtain ⟨d, hd, hphase⟩ := h.waiting t hold
    by_cases hti : i = t
    · subst hti
      rw [hc] at hd
      cases hd
      exact ⟨c', hself, hgo hi.symm hphase⟩
    · exact ⟨d, by rw [List.getElem?_set_ne hti]; exact hd, hphase⟩
  · intro t ht
    rcases hleased t ht with ⟨rfl, hphase⟩ | ⟨hold, hgo⟩
    · exact ⟨c', hi ▸ hself, hphase⟩
    · obtain ⟨d, hd, hphase⟩ := h.leased t hold
      by_cases hti : i = t
      · subst hti
        rw [hc] at hd
        cases hd
        exact ⟨c', hself, hgo hi.symm hphase⟩
      · exact ⟨d, by rw [List.getElem?_set_ne hti]; exact hd, hphase⟩

/-- Every step leaves each ticket where its call says. -/
theorem Placed.step (h : Placed s) (hs : s.step a = some s') (hlen : s'.calls.length ≤ 2 ^ 64) :
    Placed s' := by
  rcases step_cases hs with ⟨limit, waits, rfl⟩ | ⟨i, c, c', state, sent, hc, hmove, rfl⟩
  · rw [List.length_append, List.length_singleton] at hlen
    exact h.register limit waits (by omega)
  · exact h.move hc hmove

/-! ## What waiters have heard -/

/-- A signal is on its way, or every waiter that could be promoted was sent one after its last failed attempt. -/
structure Heard (s : ProviderConnectionGate) : Prop where
  seen : ∀ c ∈ s.calls, c.seen ≤ s.sent
  failed : ∀ c ∈ s.calls, ∀ n, c.failedAt = some n → n ≤ s.sent
  refused : ∀ c ∈ s.calls, c.phase = .refused → ∃ n, c.failedAt = some n ∧ c.seen ≤ n
  roused : (∃ c ∈ s.calls, c.phase.owesSignal = true) ∨
    ∀ c ∈ s.calls, ∀ n, c.failedAt = some n → s.state.tryPromote c.ticket ≠ none → n < s.sent

theorem heard_new : Heard new := by
  constructor <;> simp [new]

/-- The call after a move. -/
theorem mem_calls_self (hc : s.calls[i]? = some c) (c' : AcquireCall) :
    c' ∈ s.calls.set i c' := List.mem_set (List.getElem?_eq_some_iff.mp hc).1 _

theorem Heard.move (h : Heard s)
    (hc : s.calls[i]? = some c) (hmove : CallMove s c c' state sent) : Heard ⟨state, sent, s.calls.set i c'⟩ := by
  have hcm := List.mem_of_getElem? hc
  have hself := mem_calls_self hc c'
  have hsent : s.sent ≤ sent := by cases hmove <;> simp
  have hset : ∀ {p : AcquireCall → Prop}, (∀ d ∈ s.calls, p d) → p c' → ∀ d ∈ s.calls.set i c', p d := by
    intro p hall hnew d hd
    rcases List.mem_or_eq_of_mem_set hd with hd | rfl
    · exact hall d hd
    · exact hnew
  -- The call of another signal is still there, when this one had none to send.
  have howed : c.phase.owesSignal = false → (∃ d ∈ s.calls, d.phase.owesSignal = true) →
      ∃ d ∈ s.calls.set i c', d.phase.owesSignal = true := by
    rintro hnot ⟨d, hd, howes⟩
    obtain ⟨j, hj⟩ := List.mem_iff_getElem?.mp hd
    have hij : i ≠ j := by
      rintro rfl
      rw [hc] at hj
      cases hj
      rw [hnot] at howes
      cases howes
    exact ⟨d, List.mem_of_getElem? ((List.getElem?_set_ne hij).trans hj), howes⟩
  have hseen : ∀ d ∈ s.calls, d.seen ≤ sent := fun d hd => (h.seen d hd).trans hsent
  have hfailed : ∀ d ∈ s.calls, ∀ n, d.failedAt = some n → n ≤ sent := fun d hd n hn => (h.failed d hd n hn).trans hsent
  cases hmove with
  | signal phase howes hrefused hwaiting hleased =>
    refine ⟨hset hseen (hseen c hcm), hset hfailed (hfailed c hcm), hset h.refused (fun hp => absurd hp hrefused), .inr ?_⟩
    exact hset (fun d hd n hn _ => Nat.lt_succ_of_le (h.failed d hd n hn)) (fun n hn _ => Nat.lt_succ_of_le (h.failed c hcm n hn))
  | listen hwaiting hleased howes =>
    refine ⟨hset hseen le_rfl, hset hfailed (hfailed c hcm), hset h.refused (fun hp => by cases hp), ?_⟩
    exact h.roused.imp (howed howes) fun hall => hset hall (hall c hcm)
  | refused hphase hnone =>
    refine ⟨hset hseen (hseen c hcm), hset hfailed (fun n hn => by cases hn; exact le_rfl),
      hset h.refused (fun _ => ⟨_, rfl, h.seen c hcm⟩), ?_⟩
    exact h.roused.imp (howed (by rw [hphase]; rfl)) fun hall => hset hall (fun n _ hp => absurd hnone hp)
  | promoted hphase state hsome | cancelled hphase | released hphase =>
    exact ⟨hset hseen (hseen c hcm), hset hfailed (hfailed c hcm), hset h.refused (fun hp => by cases hp), .inl ⟨_, hself, rfl⟩⟩
  | gone howes hwaiting hleased =>
    refine ⟨hset hseen (hseen c hcm), hset hfailed (hfailed c hcm), hset h.refused (fun hp => by cases hp), ?_⟩
    exact h.roused.imp (howed howes) fun hall => hset hall (hall c hcm)

/-- Every step leaves each waiter that could be promoted with a signal. -/
theorem Heard.step (h : Heard s) (hs : s.step a = some s') : Heard s' := by
  rcases step_cases hs with ⟨limit, waits, rfl⟩ | ⟨i, c, c', state, sent, hc, hmove, rfl⟩
  · have happend : ∀ {p : AcquireCall → Prop} {x : AcquireCall}, (∀ d ∈ s.calls, p d) → p x → ∀ d ∈ s.calls ++ [x], p d := by
      intro p x hall hnew
      exact List.forall_mem_append.mpr ⟨hall, List.forall_mem_singleton.mpr hnew⟩
    refine ⟨happend h.seen (Nat.zero_le _), happend h.failed (fun n hn => by cases hn), happend h.refused (fun hp => by cases hp), ?_⟩
    exact .inl ⟨_, List.mem_append_right _ (List.mem_singleton_self _), rfl⟩
  · exact h.move hc hmove

end ProviderConnectionGate

end Usenet

end Risuko
