import Risuko.Util.Limiter

/-!
# What a rate limiter books and releases

Every return of `acquire` was booked in full, or read that there is no limit. Without a change of the limit a call books once, and the bookings follow
each other on the virtual time.
-/

namespace Risuko

namespace Util

open VirtualTime (Charge)

variable {limit bytes : ℕ}

/-! ## Bookings -/

theorem le_mul_fullCost (bytes : ℕ) (h : 0 < limit) : bytes * 1000000 ≤ limit * fullCost bytes limit := by
  unfold fullCost
  have hlt := Nat.lt_mul_div_succ (bytes * 1000000 + limit - 1) h
  rw [Nat.mul_add, Nat.mul_one] at hlt
  omega

/-- The whole cost of a request, at a positive limit, from the burst before its time at the earliest. -/
structure Booking.Full (b : Booking) : Prop where
  limit : 0 < b.limit
  cost : b.charge.after = b.charge.base + fullCost b.charge.bytes b.limit
  burst : b.charge.now ≤ b.charge.base + burstWindowUs

theorem Booking.Full.fair {b : Booking} (h : b.Full) : b.charge.Fair b.limit 1000000 burstWindowUs where
  base_le := by rw [h.cost]; exact Nat.le_add_right _ _
  cost := by
    rw [h.cost, Nat.add_sub_cancel_left]
    exact le_mul_fullCost _ h.limit
  burst := h.burst

/-- A swap in time books the whole cost. -/
theorem newVa_eq {cur : Word} {nowUs : ℕ} (h : baseOf cur nowUs + fullCost bytes limit < 2 ^ epochShift) :
    newVa cur nowUs (costUs bytes limit) = baseOf cur nowUs + fullCost bytes limit := by
  have hsmall : fullCost bytes limit < 2 ^ 64 := by
    have hshift : 2 ^ epochShift ≤ 2 ^ 64 := Nat.pow_le_pow_right (by decide) (by decide)
    omega
  unfold newVa costUs timeMask
  rw [Nat.mod_eq_of_lt hsmall]
  exact Nat.min_eq_left (by omega)

theorem Booking.full_of_swap {i epoch nowUs : ℕ} {cur : Word} (hpos : 0 < limit)
    (htime : baseOf cur nowUs + fullCost bytes limit < 2 ^ epochShift) :
    Booking.Full ⟨i, epoch, limit, ⟨bytes, nowUs, baseOf cur nowUs, newVa cur nowUs (costUs bytes limit)⟩⟩ where
  limit := hpos
  cost := newVa_eq htime
  burst := by
    have hbase : nowUs - burstWindowUs ≤ baseOf cur nowUs := Nat.le_max_right _ _
    exact Nat.le_add_of_sub_le hbase

/-! ## What a step does -/

/-- What a step makes of a call that neither books nor returns. -/
inductive Turn (s : RateLimiter) (c : Acquire) : Acquire → Prop where
  | epoch (h : c.phase = .epoch) : Turn s c { c with phase := .limit s.state.epoch }
  | unlimited {epoch : ℕ} (h : c.phase = .limit epoch) (hlimit : s.limitBps = 0) :
      Turn s c { c with phase := .granted, limitRead := 0, booking := none }
  | limit {epoch : ℕ} (h : c.phase = .limit epoch) (hlimit : s.limitBps ≠ 0) :
      Turn s c { c with phase := .clock epoch s.limitBps, limitRead := s.limitBps }
  | clock {epoch limit : ℕ} (h : c.phase = .clock epoch limit) : Turn s c { c with phase := .load epoch limit s.clock }
  | stale {epoch limit nowUs : ℕ} (h : c.phase = .load epoch limit nowUs) (hepoch : s.state.epoch ≠ epoch) : Turn s c { c with phase := .epoch }
  | load {epoch limit nowUs : ℕ} (h : c.phase = .load epoch limit nowUs) (hepoch : s.state.epoch = epoch) :
      Turn s c { c with phase := .swap epoch limit nowUs s.state }
  | lost {epoch limit nowUs : ℕ} {cur : Word} (h : c.phase = .swap epoch limit nowUs cur) : Turn s c { c with phase := .clock epoch limit }
  | deadline {epoch waitUs : ℕ} (h : c.phase = .deadline epoch waitUs) : Turn s c { c with phase := .listen epoch (s.clock + waitUs) }
  | listen {epoch deadline : ℕ} (h : c.phase = .listen epoch deadline) : Turn s c { c with phase := .check epoch deadline false }
  | retuned {epoch deadline : ℕ} {woken : Bool} (h : c.phase = .check epoch deadline woken) (hepoch : s.state.epoch ≠ epoch) :
      Turn s c { c with phase := .epoch, seen := s.state.epoch }
  | check {epoch deadline : ℕ} {woken : Bool} (h : c.phase = .check epoch deadline woken) (hepoch : s.state.epoch = epoch) :
      Turn s c { c with phase := .sleep epoch deadline woken, seen := s.state.epoch }
  | notified {epoch deadline : ℕ} (h : c.phase = .sleep epoch deadline true) : Turn s c { c with phase := .listen epoch deadline }

/-- A call may return. -/
def Acquire.Ends (c : Acquire) (clock : ℕ) : Prop := c.phase = .granted ∨ ∃ epoch deadline woken, c.phase = .sleep epoch deadline woken ∧
    deadline ≤ clock

/-- What a step does. -/
inductive Stepped (s : RateLimiter) (a : LimiterAction) : RateLimiter → Prop where
  | acquire (bytes : ℕ) : Stepped s a { s with calls := s.calls ++ [⟨bytes, if bytes = 0 then .done else .epoch, 0, none, 0⟩] }
  | turn {i : ℕ} {c c' : Acquire} (hc : s.calls[i]? = some c) (hturn : Turn s c c') : Stepped s a (s.setCall i c')
  | book {i : ℕ} {c : Acquire} {epoch limit nowUs : ℕ} (ha : a = .step i) (hc : s.calls[i]? = some c)
      (hphase : c.phase = .swap epoch limit nowUs s.state) :
      Stepped s a (s.book i c epoch limit nowUs s.state)
  | release {i : ℕ} {c : Acquire} (hc : s.calls[i]? = some c) (hends : c.Ends s.clock) : Stepped s a (s.release i c)
  | setLimit (bps : ℕ) (ha : a = .setLimit bps) : Stepped s a { s with setters := s.setters ++ [⟨bps, .swap⟩] }
  | setStep {j : ℕ} {t : SetLimit} (ht : s.setters[j]? = some t) {s' : RateLimiter} (hs : s.setLimitStep j t = some s') : Stepped s a s'
  | tick (us : ℕ) : Stepped s a { s with clock := s.clock + us }

namespace RateLimiter

theorem acquireStep_stepped {s s' : RateLimiter} {i : ℕ} {c : Acquire} (hc : s.calls[i]? = some c) (h : s.acquireStep i c = some s') :
    Stepped s (.step i) s' := by
  unfold acquireStep at h
  cases hphase : c.phase with
  | epoch =>
    simp only [hphase, Option.some.injEq] at h
    subst h
    exact .turn hc (.epoch hphase)
  | limit epoch =>
    simp only [hphase] at h
    split at h <;> obtain rfl := Option.some.inj h
    · exact .turn hc (.unlimited hphase ‹_›)
    · exact .turn hc (.limit hphase ‹_›)
  | clock epoch limit =>
    simp only [hphase, Option.some.injEq] at h
    subst h
    exact .turn hc (.clock hphase)
  | load epoch limit nowUs =>
    simp only [hphase] at h
    split at h <;> obtain rfl := Option.some.inj h
    · exact .turn hc (.stale hphase ‹_›)
    · rename_i hepoch
      exact .turn hc (.load hphase (not_not.mp hepoch))
  | swap epoch limit nowUs cur =>
    simp only [hphase] at h
    split at h <;> obtain rfl := Option.some.inj h
    · rename_i hcur
      subst hcur
      exact .book rfl hc hphase
    · exact .turn hc (.lost hphase)
  | granted =>
    simp only [hphase, Option.some.injEq] at h
    subst h
    exact .release hc (.inl hphase)
  | deadline epoch waitUs =>
    simp only [hphase, Option.some.injEq] at h
    subst h
    exact .turn hc (.deadline hphase)
  | listen epoch deadline =>
    simp only [hphase, Option.some.injEq] at h
    subst h
    exact .turn hc (.listen hphase)
  | check epoch deadline woken =>
    simp only [hphase] at h
    split at h <;> obtain rfl := Option.some.inj h
    · exact .turn hc (.retuned hphase ‹_›)
    · rename_i hepoch
      exact .turn hc (.check hphase (not_not.mp hepoch))
  | sleep epoch deadline woken =>
    simp only [hphase] at h
    cases h
  | done =>
    simp only [hphase] at h
    cases h

theorem step_stepped {s s' : RateLimiter} {a : LimiterAction} (h : s.step a = some s') : Stepped s a s' := by
  cases a with
  | acquire bytes =>
    obtain rfl := Option.some.inj h
    exact .acquire bytes
  | step i =>
    simp only [step] at h
    split at h
    · cases h
    · rename_i c hc
      exact acquireStep_stepped hc h
  | fail i =>
    simp only [step] at h
    split at h
    · cases h
    rename_i c hc
    split at h
    · rename_i hphase
      obtain rfl := Option.some.inj h
      exact .turn hc (.lost hphase)
    · cases h
  | timer i =>
    simp only [step] at h
    split at h
    · cases h
    rename_i c hc
    split at h
    · rename_i hphase
      split at h
      · obtain rfl := Option.some.inj h
        exact .release hc (.inr ⟨_, _, _, hphase, ‹_›⟩)
      · cases h
    · cases h
  | notified i =>
    simp only [step] at h
    split at h
    · cases h
    rename_i c hc
    split at h
    · rename_i hphase
      obtain rfl := Option.some.inj h
      exact .turn hc (.notified hphase)
    · cases h
  | setLimit bps =>
    obtain rfl := Option.some.inj h
    exact .setLimit bps rfl
  | setStep j =>
    simp only [step] at h
    split at h
    · cases h
    · rename_i t ht
      exact .setStep ht h
  | tick us =>
    obtain rfl := Option.some.inj h
    exact .tick us

end RateLimiter

/-! ## What is released was booked -/

/-- A booking is that of a call, made when the call looked at the state last, in full. -/
structure Booking.Pays (b : Booking) (bookings : List Booking) (call bytes limitRead seen : ℕ) : Prop where
  mem : b ∈ bookings
  full : b.Full
  call : b.call = call
  bytes : b.charge.bytes = bytes
  limit : b.limit = limitRead
  seen : b.epoch = seen

theorem Booking.Pays.mono {b : Booking} {bookings bookings' : List Booking} {call limitRead seen : ℕ}
    (h : b.Pays bookings call bytes limitRead seen) (hsub : ∀ x ∈ bookings, x ∈ bookings') : b.Pays bookings' call bytes limitRead seen :=
  { h with mem := hsub b h.mem }

namespace Acquire

/-- The call has a booking, and waits until it is due. -/
def Waits (bookings : List Booking) (i : ℕ) (c : Acquire) (epoch deadline : ℕ) : Prop :=
  ∃ b, c.booking = some b ∧ b.Pays bookings i c.bytes c.limitRead c.seen ∧ b.epoch = epoch ∧ b.charge.due ≤ deadline

/-- What a call knows in each of its phases. -/
def Sound (bookings : List Booking) (clock i : ℕ) (c : Acquire) : Prop :=
  match c.phase with
  | .epoch | .limit _ | .done => True
  | .clock _ limit => 0 < limit ∧ limit = c.limitRead
  | .load _ limit nowUs => (0 < limit ∧ limit = c.limitRead) ∧ nowUs ≤ clock
  | .swap epoch limit nowUs cur => (0 < limit ∧ limit = c.limitRead) ∧ nowUs ≤ clock ∧ cur.epoch = epoch
  | .granted => (c.booking = none ∧ c.limitRead = 0) ∨
      ∃ b, c.booking = some b ∧ b.Pays bookings i c.bytes c.limitRead c.seen ∧ b.charge.due ≤ clock
  | .deadline epoch waitUs => ∃ b, c.booking = some b ∧ b.Pays bookings i c.bytes c.limitRead c.seen ∧ b.epoch = epoch ∧
      b.charge.due ≤ clock + waitUs
  | .listen epoch deadline | .check epoch deadline _ | .sleep epoch deadline _ => c.Waits bookings i epoch deadline

theorem Waits.mono {bookings bookings' : List Booking} {i epoch deadline : ℕ} {c : Acquire} (h : c.Waits bookings i epoch deadline)
    (hsub : ∀ x ∈ bookings, x ∈ bookings') : c.Waits bookings' i epoch deadline := by
  obtain ⟨b, hb, hpays, hepoch, hdue⟩ := h
  exact ⟨b, hb, hpays.mono hsub, hepoch, hdue⟩

/-- More bookings and a later clock take nothing away. -/
theorem Sound.mono {bookings bookings' : List Booking} {clock clock' i : ℕ} {c : Acquire} (h : c.Sound bookings clock i)
    (hsub : ∀ x ∈ bookings, x ∈ bookings') (hclock : clock ≤ clock') : c.Sound bookings' clock' i := by
  unfold Sound at h ⊢
  split at h
  · trivial
  · trivial
  · trivial
  · exact h
  · exact ⟨h.1, Nat.le_trans h.2 hclock⟩
  · exact ⟨h.1, Nat.le_trans h.2.1 hclock, h.2.2⟩
  · rcases h with h | ⟨b, hb, hpays, hdue⟩
    · exact .inl h
    · exact .inr ⟨b, hb, hpays.mono hsub, Nat.le_trans hdue hclock⟩
  · obtain ⟨b, hb, hpays, hepoch, hdue⟩ := h
    exact ⟨b, hb, hpays.mono hsub, hepoch, Nat.le_trans hdue (Nat.add_le_add_right hclock _)⟩
  · exact Waits.mono h hsub
  · exact Waits.mono h hsub
  · exact Waits.mono h hsub

end Acquire

/-- A return was booked in full, and not before it was due, or the call read that there is no limit. -/
def Release.Sound (bookings : List Booking) (r : Release) : Prop :=
  (r.booking = none ∧ r.limitRead = 0) ∨
    ∃ b, r.booking = some b ∧ b.Pays bookings r.call r.bytes r.limitRead r.seen ∧ b.charge.due ≤ r.time

theorem Turn.sound {s : RateLimiter} {i : ℕ} {c c' : Acquire} (h : Turn s c c') (hc : c.Sound s.bookings s.clock i) : c'.Sound s.bookings s.clock i := by
  unfold Acquire.Sound at hc
  cases h with
  | epoch hphase => trivial
  | unlimited hphase hlimit => exact .inl ⟨rfl, rfl⟩
  | limit hphase hlimit => exact ⟨Nat.pos_of_ne_zero hlimit, rfl⟩
  | clock hphase =>
    rw [hphase] at hc
    exact ⟨hc, Nat.le_refl _⟩
  | stale hphase hepoch => trivial
  | load hphase hepoch =>
    rw [hphase] at hc
    exact ⟨hc.1, hc.2, hepoch⟩
  | lost hphase =>
    rw [hphase] at hc
    exact hc.1
  | deadline hphase =>
    rw [hphase] at hc
    exact hc
  | listen hphase =>
    rw [hphase] at hc
    exact hc
  | retuned hphase hepoch => trivial
  | check hphase hepoch =>
    rw [hphase] at hc
    obtain ⟨b, hb, hpays, hbepoch, hdue⟩ := hc
    exact ⟨b, hb, { hpays with seen := hbepoch.trans hepoch.symm }, hbepoch, hdue⟩
  | notified hphase =>
    rw [hphase] at hc
    exact hc

namespace RateLimiter

variable {s : RateLimiter} {i : ℕ} {c : Acquire}

/-- The calls are sound, and so is what they released. -/
structure Books (s : RateLimiter) : Prop where
  calls : ∀ (i : ℕ) (c : Acquire), s.calls[i]? = some c → c.Sound s.bookings s.clock i
  released : ∀ r ∈ s.released, r.Sound s.bookings

theorem getElem?_setCall {j : ℕ} {d : Acquire} (h : (s.setCall i c).calls[j]? = some d) :
    (j = i ∧ d = c) ∨ (j ≠ i ∧ s.calls[j]? = some d) := by
  have hset : (s.calls.set i c)[j]? = some d := h
  rw [List.getElem?_set] at hset
  split at hset
  · rename_i hij
    split at hset
    · exact .inl ⟨hij.symm, (Option.some.inj hset).symm⟩
    · cases hset
  · rename_i hij
    exact .inr ⟨fun h => hij h.symm, hset⟩

theorem Books.setCall (h : s.Books) (hc : c.Sound s.bookings s.clock i) : (s.setCall i c).Books where
  calls := by
    intro j d hd
    rcases getElem?_setCall hd with ⟨rfl, rfl⟩ | ⟨-, hd⟩
    · exact hc
    · exact h.calls j d hd
  released := h.released

/-- A booking is made in full, and the call waits until it is due. -/
theorem Books.book (h : s.Books) {epoch limit nowUs : ℕ} (hc : s.calls[i]? = some c)
    (hphase : c.phase = .swap epoch limit nowUs s.state) (htime : baseOf s.state nowUs + fullCost c.bytes limit < 2 ^ epochShift) :
    (s.book i c epoch limit nowUs s.state).Books := by
  have hsound := h.calls i c hc
  unfold Acquire.Sound at hsound
  rw [hphase] at hsound
  obtain ⟨⟨hpos, hread⟩, hnow, -⟩ := hsound
  obtain ⟨b, hb⟩ : ∃ b : Booking, b = ⟨i, epoch, limit, ⟨c.bytes, nowUs, baseOf s.state nowUs, newVa s.state nowUs (costUs c.bytes limit)⟩⟩ := ⟨_, rfl⟩
  have hpays : b.Pays (s.bookings ++ [b]) i c.bytes c.limitRead epoch := by
    refine ⟨List.mem_append_right _ (List.mem_singleton_self _), ?_, ?_, ?_, ?_, ?_⟩ <;> rw [hb]
    · exact Booking.full_of_swap hpos htime
    · exact hread
  have hsub : ∀ x ∈ s.bookings, x ∈ s.bookings ++ [b] := fun x hx => List.mem_append_left _ hx
  have hdue : b.charge.due = max (newVa s.state nowUs (costUs c.bytes limit)) nowUs := by rw [hb]; rfl
  have hbook : s.book i c epoch limit nowUs s.state =
      { s.setCall i { c with
          phase := if b.charge.after - nowUs = 0 then .granted else .deadline epoch (b.charge.after - nowUs), booking := some b, seen := epoch } with
        state := ⟨epoch, b.charge.after⟩, bookings := s.bookings ++ [b] } := by rw [hb]; rfl
  have hafterb : b.charge.after = newVa s.state nowUs (costUs c.bytes limit) := by rw [hb]
  rw [hbook]
  constructor
  · intro j d hd
    rcases getElem?_setCall hd with ⟨rfl, rfl⟩ | ⟨-, hd⟩
    · by_cases hwait : b.charge.after - nowUs = 0
      · rw [if_pos hwait]
        have hle : b.charge.due ≤ s.clock := by omega
        exact .inr ⟨b, rfl, hpays, hle⟩
      · rw [if_neg hwait]
        have hle : b.charge.due ≤ s.clock + (b.charge.after - nowUs) := by omega
        exact ⟨b, rfl, hpays, by rw [hb], hle⟩
    · exact (h.calls j d hd).mono hsub (Nat.le_refl _)
  · intro r hr
    rcases h.released r hr with hfree | ⟨b', hb', hpays', hdue'⟩
    · exact .inl hfree
    · exact .inr ⟨b', hb', hpays'.mono hsub, hdue'⟩

/-- What a call releases is sound, as the call may end. -/
theorem Books.release (h : s.Books) (hc : s.calls[i]? = some c) (hends : c.Ends s.clock) :
    (s.release i c).Books := by
  have hsound := h.calls i c hc
  unfold Acquire.Sound at hsound
  have hdone : ({ c with phase := .done } : Acquire).Sound s.bookings s.clock i := trivial
  constructor
  · exact (h.setCall hdone).calls
  · intro r hr
    rcases List.mem_append.mp hr with hr | hr
    · exact h.released r hr
    · obtain rfl := List.mem_singleton.mp hr
      rcases hends with hphase | ⟨epoch, deadline, woken, hphase, hdeadline⟩
      · rw [hphase] at hsound
        exact hsound
      · rw [hphase] at hsound
        obtain ⟨b, hb, hpays, -, hdue⟩ := hsound
        exact .inr ⟨b, hb, hpays, Nat.le_trans hdue hdeadline⟩

theorem sound_notify {bookings : List Booking} {clock : ℕ} (h : c.Sound bookings clock i) : c.notify.Sound bookings clock i := by
  unfold Acquire.notify
  unfold Acquire.Sound at h
  split
  · rename_i hphase
    rw [hphase] at h
    exact h
  · rename_i hphase
    rw [hphase] at h
    exact h
  · exact h

theorem Books.setLimitStep {s' : RateLimiter} (h : s.Books) {j : ℕ} {t : SetLimit} (hs : s.setLimitStep j t = some s') : s'.Books := by
  unfold RateLimiter.setLimitStep at hs
  split at hs
  · split at hs <;> obtain rfl := Option.some.inj hs <;> exact ⟨h.calls, h.released⟩
  · obtain rfl := Option.some.inj hs
    exact ⟨h.calls, h.released⟩
  · obtain rfl := Option.some.inj hs
    refine ⟨?_, h.released⟩
    intro i c hc
    obtain ⟨d, hd, rfl⟩ := Option.map_eq_some_iff.mp (List.getElem?_map ▸ hc)
    exact sound_notify (h.calls i d hd)
  · cases hs

theorem inTime_swap {epoch limit nowUs : ℕ} (h : s.InTime (.step i) = true) (hc : s.calls[i]? = some c)
    (hphase : c.phase = .swap epoch limit nowUs s.state) : baseOf s.state nowUs + fullCost c.bytes limit < 2 ^ epochShift := by
  unfold InTime at h
  simp only [hc, hphase] at h
  simpa using h

/-- Steps in time keep the books. -/
theorem Books.step {s' : RateLimiter} {a : LimiterAction} (h : s.Books) (htime : s.InTime a = true) (hs : s.step a = some s') : s'.Books := by
  cases step_stepped hs with
  | acquire bytes =>
    refine ⟨?_, h.released⟩
    intro i c hc
    rw [List.getElem?_append] at hc
    split at hc
    · exact h.calls i c hc
    rw [List.getElem?_singleton] at hc
    split at hc
    · obtain rfl := Option.some.inj hc
      unfold Acquire.Sound
      split <;> first | trivial | (rename_i heq; split at heq <;> cases heq)
    · cases hc
  | turn hc hturn => exact h.setCall (hturn.sound (h.calls _ _ hc))
  | book ha hc hphase =>
    subst ha
    exact h.book hc hphase (inTime_swap htime hc hphase)
  | release hc hends => exact h.release hc hends
  | setLimit bps ha => exact ⟨h.calls, h.released⟩
  | setStep ht hset => exact h.setLimitStep hset
  | tick us => exact ⟨fun i c hc => (h.calls i c hc).mono (fun _ hx => hx) (Nat.le_add_right _ _), h.released⟩

end RateLimiter

/-! ## Without a change of the limit -/

/-- The epoch is the first one, and the limit that was read is the limit. -/
def Phase.Steady (L : ℕ) : Phase → Prop
  | .limit e | .deadline e _ | .listen e _ | .check e _ _ | .sleep e _ _ => e = 0
  | .clock e l | .load e l _ | .swap e l _ _ => e = 0 ∧ l = L
  | .epoch | .granted | .done => True

/-- The call has made its swap. -/
def Phase.booked : Phase → Bool
  | .epoch | .limit _ | .clock _ _ | .load _ _ _ | .swap _ _ _ _ => false
  | _ => true

theorem Turn.steady {s : RateLimiter} {L : ℕ} {c c' : Acquire} (h : Turn s c c') (hlimit : s.limitBps = L) (hL : 0 < L) (hepoch : s.state.epoch = 0)
    (hc : c.phase.Steady L) : c'.phase.Steady L ∧ (c.phase.booked = true → c'.phase.booked = true) ∧ c.phase ≠ .done ∧ c'.phase ≠ .granted := by
  cases h with
  | epoch hphase => simp [hphase, Phase.Steady, Phase.booked, hepoch]
  | unlimited hphase hzero => omega
  | limit hphase hne =>
    rw [hphase] at hc
    exact ⟨⟨hc, hlimit⟩, by simp [hphase, Phase.booked], by simp [hphase], by simp⟩
  | clock hphase | load hphase heq | lost hphase =>
    rw [hphase] at hc
    exact ⟨hc, by simp [hphase, Phase.booked], by simp [hphase], by simp⟩
  | stale hphase hne =>
    rw [hphase] at hc
    exact absurd (hepoch.trans hc.1.symm) hne
  | deadline hphase | listen hphase | check hphase heq | notified hphase =>
    rw [hphase] at hc
    exact ⟨hc, fun _ => rfl, by simp [hphase], by simp⟩
  | retuned hphase hne =>
    rw [hphase] at hc
    exact absurd (hepoch.trans (show _ = 0 from hc).symm) hne

namespace RateLimiter

variable {i : ℕ} {c : Acquire}

/-- Each call books once, at the limit, on the virtual time that the bookings before it have left, and returns once. -/
structure Steady (L : ℕ) (s : RateLimiter) : Prop where
  limit : s.limitBps = L
  setters : s.setters = []
  epoch : s.state.epoch = 0
  phases : ∀ (i : ℕ) (c : Acquire), s.calls[i]? = some c → c.phase.Steady L
  rates : ∀ b ∈ s.bookings, b.Full ∧ b.limit = L
  chained : VirtualTime.Chained (s.bookings.map Booking.charge)
  below : ∀ b ∈ s.bookings, b.charge.after ≤ s.state.va
  once : (s.bookings.map Booking.call).Nodup
  booked : ∀ b ∈ s.bookings, ∃ c : Acquire, s.calls[b.call]? = some c ∧ c.phase.booked = true
  releasedOnce : (s.released.map Release.call).Nodup
  gone : ∀ r ∈ s.released, ∃ c : Acquire, s.calls[r.call]? = some c ∧ c.phase = .done
  granted : ∀ (i : ℕ) (c : Acquire), s.calls[i]? = some c → c.phase = .granted → c.booking.isSome = true
  charged : ∀ r ∈ s.released, r.booking.isSome = true

theorem setCall_getElem? {s : RateLimiter} (hc : s.calls[i]? = some c) (c' : Acquire) :
    (s.setCall i c').calls[i]? = some c' := List.getElem?_set_self (List.getElem?_eq_some_iff.mp hc).1

/-- What holds of the call with a number holds after another call was put in its place, if it holds of this one or it is not its number. -/
theorem exists_setCall {s : RateLimiter} {j : ℕ} {c' : Acquire} (hc : s.calls[i]? = some c) {P : Acquire → Prop}
    (h : ∃ d, s.calls[j]? = some d ∧ P d) (hP : P c → P c') : ∃ d, (s.setCall i c').calls[j]? = some d ∧ P d := by
  obtain ⟨d, hd, hPd⟩ := h
  rcases eq_or_ne i j with rfl | hne
  · rw [hc] at hd
    obtain rfl := Option.some.inj hd
    exact ⟨c', setCall_getElem? hc c', hP hPd⟩
  · exact ⟨d, (List.getElem?_set_ne hne).trans hd, hPd⟩

variable {L : ℕ} {s : RateLimiter}

theorem Steady.phases_setCall (h : s.Steady L) (hc : c.phase.Steady L) :
    ∀ (j : ℕ) (d : Acquire), (s.setCall i c).calls[j]? = some d → d.phase.Steady L := by
  intro j d hd
  rcases getElem?_setCall hd with ⟨rfl, rfl⟩ | ⟨-, hd⟩
  · exact hc
  · exact h.phases j d hd

theorem Steady.granted_setCall (h : s.Steady L) (hc : c.phase = .granted → c.booking.isSome = true) :
    ∀ (j : ℕ) (d : Acquire), (s.setCall i c).calls[j]? = some d → d.phase = .granted → d.booking.isSome = true := by
  intro j d hd
  rcases getElem?_setCall hd with ⟨rfl, rfl⟩ | ⟨-, hd⟩
  · exact hc
  · exact h.granted j d hd

theorem Steady.turn (h : s.Steady L) (hL : 0 < L) {c' : Acquire} (hc : s.calls[i]? = some c) (hturn : Turn s c c') :
    (s.setCall i c').Steady L := by
  obtain ⟨hphase, hbooked, hdone, hgranted⟩ := hturn.steady h.limit hL h.epoch (h.phases i c hc)
  exact { h with
    phases := h.phases_setCall hphase
    booked := fun b hb => exists_setCall hc (h.booked b hb) hbooked
    gone := fun r hr => exists_setCall hc (h.gone r hr) fun hgone => absurd hgone hdone
    granted := h.granted_setCall fun hphase => absurd hphase hgranted }

theorem Steady.book (h : s.Steady L) (hL : 0 < L) {epoch limit nowUs : ℕ} (hc : s.calls[i]? = some c)
    (hphase : c.phase = .swap epoch limit nowUs s.state) (htime : baseOf s.state nowUs + fullCost c.bytes limit < 2 ^ epochShift) :
    (s.book i c epoch limit nowUs s.state).Steady L := by
  have hsteady := h.phases i c hc
  rw [hphase] at hsteady
  obtain ⟨rfl, rfl⟩ := hsteady
  have hva : s.state.va ≤ baseOf s.state nowUs := Nat.le_max_left _ _
  obtain ⟨b, hb⟩ : ∃ b : Booking, b = ⟨i, 0, limit, ⟨c.bytes, nowUs, baseOf s.state nowUs, newVa s.state nowUs (costUs c.bytes limit)⟩⟩ := ⟨_, rfl⟩
  have hfull : b.Full := hb ▸ Booking.full_of_swap hL htime
  have hbase : b.charge.base = baseOf s.state nowUs := by rw [hb]
  have hafter : b.charge.base ≤ b.charge.after := by
    rw [hfull.cost]
    exact Nat.le_add_right _ _
  have hcall : b.call = i := by rw [hb]
  have hnew : ∀ x ∈ s.bookings, x.call ≠ i := by
    intro x hx hxcall
    obtain ⟨d, hd, hbooked⟩ := h.booked x hx
    rw [hxcall, hc] at hd
    obtain rfl := Option.some.inj hd
    rw [hphase] at hbooked
    cases hbooked
  obtain ⟨c', hc'⟩ : ∃ c' : Acquire, c' = { c with
      phase := if b.charge.after - nowUs = 0 then .granted else .deadline 0 (b.charge.after - nowUs), booking := some b, seen := 0 } := ⟨_, rfl⟩
  have hphase' : c'.phase.Steady limit ∧ c'.phase.booked = true := by
    rw [hc']
    dsimp only
    split <;> exact ⟨by trivial, rfl⟩
  have hbook : s.book i c 0 limit nowUs s.state =
      { s.setCall i c' with state := ⟨0, b.charge.after⟩, bookings := s.bookings ++ [b] } := by rw [hc', hb]; rfl
  have hkept : ∀ x ∈ s.bookings, x.charge.after ≤ b.charge.base := fun x hx => Nat.le_trans (h.below x hx) (hbase ▸ hva)
  rw [hbook]
  exact {
    limit := h.limit
    setters := h.setters
    epoch := rfl
    phases := h.phases_setCall hphase'.1
    rates := by
      intro x hx
      rcases List.mem_append.mp hx with hx | hx
      · exact h.rates x hx
      · obtain rfl := List.mem_singleton.mp hx
        exact ⟨hfull, by rw [hb]⟩
    chained := by
      unfold VirtualTime.Chained
      rw [List.map_append, List.pairwise_append]
      refine ⟨h.chained, List.pairwise_singleton _ _, ?_⟩
      intro x hx y hy
      obtain ⟨z, hz, rfl⟩ := List.mem_map.mp hx
      obtain rfl := List.mem_singleton.mp hy
      exact hkept z hz
    below := by
      intro x hx
      rcases List.mem_append.mp hx with hx | hx
      · exact Nat.le_trans (hkept x hx) hafter
      · obtain rfl := List.mem_singleton.mp hx
        exact Nat.le_refl _
    once := by
      rw [List.map_append, List.nodup_append]
      refine ⟨h.once, List.pairwise_singleton _ _, ?_⟩
      intro x hx y hy
      obtain ⟨z, hz, rfl⟩ := List.mem_map.mp hx
      obtain rfl := List.mem_singleton.mp hy
      rw [hcall]
      exact hnew z hz
    booked := by
      intro x hx
      rcases List.mem_append.mp hx with hx | hx
      · exact exists_setCall hc (h.booked x hx) fun _ => hphase'.2
      · obtain rfl := List.mem_singleton.mp hx
        exact ⟨c', hcall ▸ setCall_getElem? hc c', hphase'.2⟩
    releasedOnce := h.releasedOnce
    gone := by
      intro r hr
      refine exists_setCall hc (h.gone r hr) fun hgone => ?_
      rw [hphase] at hgone
      cases hgone
    granted := h.granted_setCall fun _ => by rw [hc']; rfl
    charged := h.charged }

theorem Steady.release (h : s.Steady L) (hbooks : s.Books) (hc : s.calls[i]? = some c) (hends : c.Ends s.clock) :
    (s.release i c).Steady L := by
  have hbooking : c.booking.isSome = true := by
    rcases hends with hphase | ⟨epoch, deadline, woken, hphase, -⟩
    · exact h.granted i c hc hphase
    · have hsound := hbooks.calls i c hc
      unfold Acquire.Sound at hsound
      rw [hphase] at hsound
      obtain ⟨b, hb, -⟩ := hsound
      rw [hb]
      rfl
  have hdone : c.phase ≠ .done := by
    rcases hends with hphase | ⟨epoch, deadline, woken, hphase, -⟩ <;> simp [hphase]
  have hgone : ∀ r ∈ s.released, r.call ≠ i := by
    intro r hr hcall
    obtain ⟨d, hd, hphase⟩ := h.gone r hr
    rw [hcall, hc] at hd
    obtain rfl := Option.some.inj hd
    exact hdone hphase
  exact { h with
    phases := h.phases_setCall trivial
    booked := fun b hb => exists_setCall hc (h.booked b hb) fun _ => rfl
    releasedOnce := by
      unfold RateLimiter.release
      rw [List.map_append, List.nodup_append]
      refine ⟨h.releasedOnce, List.pairwise_singleton _ _, ?_⟩
      intro x hx y hy
      obtain ⟨r, hr, rfl⟩ := List.mem_map.mp hx
      obtain rfl := List.mem_singleton.mp hy
      exact hgone r hr
    gone := by
      intro r hr
      rcases List.mem_append.mp hr with hr | hr
      · exact exists_setCall hc (h.gone r hr) fun _ => rfl
      · obtain rfl := List.mem_singleton.mp hr
        exact ⟨_, setCall_getElem? hc _, rfl⟩
    granted := h.granted_setCall fun hphase => by cases hphase
    charged := by
      intro r hr
      rcases List.mem_append.mp hr with hr | hr
      · exact h.charged r hr
      · obtain rfl := List.mem_singleton.mp hr
        exact hbooking }

/-- Steps in time that do not change the limit keep the bookings in order. -/
theorem Steady.step {s' : RateLimiter} {a : LimiterAction} (h : s.Steady L) (hbooks : s.Books) (hL : 0 < L) (htime : s.InTime a = true)
    (huntuned : Untuned a = true)
    (hs : s.step a = some s') : s'.Steady L := by
  cases step_stepped hs with
  | acquire bytes =>
    have hkept : ∀ {j : ℕ} {P : Acquire → Prop}, (∃ d, s.calls[j]? = some d ∧ P d) →
        ∃ d, (s.calls ++ [⟨bytes, if bytes = 0 then .done else .epoch, 0, none, 0⟩])[j]? = some d ∧ P d := by
      rintro j P ⟨d, hd, hP⟩
      exact ⟨d, (List.getElem?_append_left (List.getElem?_eq_some_iff.mp hd).1).trans hd, hP⟩
    exact { h with
      phases := by
        intro j d hd
        rw [List.getElem?_append] at hd
        split at hd
        · exact h.phases j d hd
        rw [List.getElem?_singleton] at hd
        split at hd
        · obtain rfl := Option.some.inj hd
          dsimp only
          split <;> trivial
        · cases hd
      booked := fun b hb => hkept (h.booked b hb)
      gone := fun r hr => hkept (h.gone r hr)
      granted := by
        intro j d hd hphase
        rw [List.getElem?_append] at hd
        split at hd
        · exact h.granted j d hd hphase
        rw [List.getElem?_singleton] at hd
        split at hd
        · obtain rfl := Option.some.inj hd
          dsimp only at hphase
          split at hphase <;> cases hphase
        · cases hd }
  | turn hc hturn => exact h.turn hL hc hturn
  | book ha hc hphase =>
    subst ha
    exact h.book hL hc hphase (inTime_swap htime hc hphase)
  | release hc hends => exact h.release hbooks hc hends
  | setLimit bps ha =>
    subst ha
    cases huntuned
  | setStep ht hset =>
    rw [h.setters] at ht
    cases ht
  | tick us => exact { h with }

/-! ## Releases in a window -/

/-- What is returned in a window of time. -/
def releasedIn (s : RateLimiter) (a w : ℕ) : List Release := s.released.filter fun r => a ≤ r.time && r.time ≤ a + w

/-- Returns that were booked have as many bytes as their bookings. -/
theorem sum_released {releases : List Release} (h : ∀ r ∈ releases, ∃ b, r.booking = some b ∧ b.charge.bytes = r.bytes) :
    (releases.map Release.bytes).sum = ((releases.filterMap Release.booking).map fun b => b.charge.bytes).sum := by
  induction releases with
  | nil => rfl
  | cons r releases ih =>
    obtain ⟨⟨b, hb, hbytes⟩, h⟩ := List.forall_mem_cons.mp h
    rw [List.filterMap_cons_some hb, List.map_cons, List.sum_cons, List.map_cons, List.sum_cons, ih h, hbytes]

theorem map_call_released {releases : List Release} (h : ∀ r ∈ releases, ∃ b, r.booking = some b ∧ b.call = r.call) :
    (releases.filterMap Release.booking).map Booking.call = releases.map Release.call := by
  induction releases with
  | nil => rfl
  | cons r releases ih =>
    obtain ⟨⟨b, hb, hcall⟩, h⟩ := List.forall_mem_cons.mp h
    rw [List.filterMap_cons_some hb, List.map_cons, List.map_cons, ih h, hcall]

/-- Each return in a window has a booking of its own that is due in the window, or before it by as much as returns come late. -/
theorem Steady.released_le (h : s.Steady L) (hbooks : s.Books) {a w δ : ℕ} (hlate : ∀ r ∈ s.released, ∀ b ∈ r.booking, r.time ≤ b.charge.due + δ) :
    ((s.releasedIn a w).map Release.bytes).sum ≤
      ((s.bookings.filter fun b => a - δ ≤ b.charge.due && b.charge.due ≤ a + w).map fun b => b.charge.bytes).sum := by
  have hbooked : ∀ r ∈ s.releasedIn a w, ∃ b, r.booking = some b ∧ b.Pays s.bookings r.call r.bytes r.limitRead r.seen ∧
      a - δ ≤ b.charge.due ∧ b.charge.due ≤ a + w := by
    intro r hr
    obtain ⟨hmem, hwindow⟩ := List.mem_filter.mp hr
    simp only [Bool.and_eq_true, decide_eq_true_eq] at hwindow
    rcases hbooks.released r hmem with ⟨hnone, -⟩ | ⟨b, hb, hpays, hdue⟩
    · have hsome := h.charged r hmem
      rw [hnone] at hsome
      cases hsome
    · have htime := hlate r hmem b hb
      exact ⟨b, hb, hpays, by omega, by omega⟩
  have hnodup : ((s.releasedIn a w).filterMap Release.booking).Nodup := by
    refine List.Nodup.of_map Booking.call ?_
    rw [map_call_released fun r hr => ?_]
    · exact h.releasedOnce.sublist (List.filter_sublist.map _)
    · obtain ⟨b, hb, hpays, -⟩ := hbooked r hr
      exact ⟨b, hb, hpays.call⟩
  have hsub : (s.releasedIn a w).filterMap Release.booking ⊆ s.bookings.filter fun b => a - δ ≤ b.charge.due && b.charge.due ≤ a + w := by
    intro b hb
    obtain ⟨r, hr, hrb⟩ := List.mem_filterMap.mp hb
    obtain ⟨b', hb', hpays, hlower, hupper⟩ := hbooked r hr
    rw [hrb] at hb'
    obtain rfl := Option.some.inj hb'
    exact List.mem_filter.mpr ⟨hpays.mem, by simp [hlower, hupper]⟩
  obtain ⟨l, hperm, hsublist⟩ := List.subperm_of_subset hnodup hsub
  calc ((s.releasedIn a w).map Release.bytes).sum
      = (((s.releasedIn a w).filterMap Release.booking).map fun b => b.charge.bytes).sum := sum_released fun r hr => by
        obtain ⟨b, hb, hpays, -⟩ := hbooked r hr
        exact ⟨b, hb, hpays.bytes⟩
    _ = (l.map fun b => b.charge.bytes).sum := (hperm.map _).sum_eq.symm
    _ ≤ _ := (hsublist.map _).sum_le_sum fun _ _ => Nat.zero_le _

/-- What is returned in a window is bounded by the limit, the burst and one request. -/
theorem Steady.window_bound (h : s.Steady L) (hbooks : s.Books) {a w δ : ℕ} (hlate : ∀ r ∈ s.released, ∀ b ∈ r.booking, r.time ≤ b.charge.due + δ) :
    ((s.releasedIn a w).map Release.bytes).sum = 0 ∨
      ∃ b ∈ s.bookings, ((s.releasedIn a w).map Release.bytes).sum * 1000000 ≤ L * (w + δ + burstWindowUs) + b.charge.bytes * 1000000 := by
  have hle := h.released_le hbooks (a := a) (w := w) hlate
  obtain ⟨V, hV⟩ : ∃ V, V = s.bookings.filter fun b => a - δ ≤ b.charge.due && b.charge.due ≤ a + w := ⟨_, rfl⟩
  rw [← hV] at hle
  have hmem : ∀ b ∈ V, b ∈ s.bookings ∧ a - δ ≤ b.charge.due ∧ b.charge.due ≤ a - δ + (w + δ) := by
    intro b hb
    rw [hV] at hb
    obtain ⟨hb, hdue⟩ := List.mem_filter.mp hb
    simp only [Bool.and_eq_true, decide_eq_true_eq] at hdue
    exact ⟨hb, hdue.1, by omega⟩
  have hchained : VirtualTime.Chained (V.map Booking.charge) := by
    rw [hV]
    exact h.chained.sublist (List.filter_sublist.map _)
  have hbytes : (V.map fun b => b.charge.bytes) = (V.map Booking.charge).map Charge.bytes := (List.map_map ..).symm
  have hfair : ∀ c ∈ V.map Booking.charge, c.Fair L 1000000 burstWindowUs := by
    intro c hc
    obtain ⟨b, hb, rfl⟩ := List.mem_map.mp hc
    obtain ⟨hfull, hlimit⟩ := h.rates b (hmem b hb).1
    exact hlimit ▸ hfull.fair
  have hwindow : ∀ c ∈ V.map Booking.charge, a - δ ≤ c.due ∧ c.due ≤ a - δ + (w + δ) := by
    intro c hc
    obtain ⟨b, hb, rfl⟩ := List.mem_map.mp hc
    exact (hmem b hb).2
  rcases VirtualTime.window_bound hchained hfair hwindow with hnil | ⟨c, hc, hbound⟩
  · left
    rw [hbytes, hnil] at hle
    exact Nat.le_zero.mp hle
  · right
    obtain ⟨b, hb, rfl⟩ := List.mem_map.mp hc
    refine ⟨b, (hmem b hb).1, ?_⟩
    rw [← hbytes] at hbound
    exact Nat.le_trans (Nat.mul_le_mul_right _ hle) hbound

end RateLimiter

end Util

end Risuko
