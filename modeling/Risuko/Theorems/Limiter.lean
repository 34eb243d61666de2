import Risuko.Lemmas.Limiter
import Risuko.Lib.Reach

/-!
# The rate limiter over whole runs

With one limit, no window lets more through than the limit and a burst of two seconds allow, up to one request and to the time that calls lose between
their reading of the clock and their return. With limits that change, what is released was charged in full to the epoch that its call saw last.
-/

namespace Risuko

namespace Util

namespace RateLimiter

/-- A run with one limit, in which the virtual time stays below its bits. -/
def SteadyRun (L : ℕ) : RateLimiter → Prop := Reach (Fresh L) fun s s' => ∃ a, (Untuned a = true ∧ s.InTime a = true) ∧ s.step a = some s'

/-- A run with any limits. -/
def TunedRun (L : ℕ) : RateLimiter → Prop := Reach (Fresh L) fun s s' => ∃ a, s.InTime a = true ∧ s.step a = some s'

/-- A new limiter has booked nothing. -/
theorem Fresh.books {L : ℕ} {s : RateLimiter} (h : Fresh L s) : s.Books := by
  obtain ⟨-, -, hcalls, -, -, hreleased⟩ := h
  constructor
  · intro i c hc
    rw [hcalls] at hc
    cases hc
  · intro r hr
    rw [hreleased] at hr
    cases hr

/-- A new limiter is steady at its limit. -/
theorem Fresh.steady {L : ℕ} {s : RateLimiter} (h : Fresh L s) : s.Steady L := by
  obtain ⟨hlimit, hstate, hcalls, hsetters, hbookings, hreleased⟩ := h
  constructor
  · exact hlimit
  · exact hsetters
  · rw [hstate]
  all_goals simp [hcalls, hbookings, hreleased, VirtualTime.Chained]

/-- A run at one limit is steady, and keeps the books. -/
theorem SteadyRun.invariant {L : ℕ} {s : RateLimiter} (hL : 0 < L) (h : SteadyRun L s) : s.Steady L ∧ s.Books := by
  have hstart : ∀ s, Fresh L s → s.Steady L ∧ s.Books := fun s hs => ⟨Fresh.steady hs, Fresh.books hs⟩
  have hstep : ∀ s s' : RateLimiter, s.Steady L ∧ s.Books → (∃ a, (Untuned a = true ∧ s.InTime a = true) ∧ s.step a = some s') →
      s'.Steady L ∧ s'.Books := by
    rintro s s' ⟨hsteady, hbooks⟩ ⟨a, ⟨huntuned, htime⟩, hs⟩
    exact ⟨hsteady.step hbooks hL htime huntuned hs, hbooks.step htime hs⟩
  exact Reach.invariant hstart hstep h

/-- The books are kept however the limit is set. -/
theorem TunedRun.books {L : ℕ} {s : RateLimiter} (h : TunedRun L s) : s.Books := by
  have hstep : ∀ s s' : RateLimiter, s.Books → (∃ a, s.InTime a = true ∧ s.step a = some s') → s'.Books := by
    rintro s s' hbooks ⟨a, htime, hs⟩
    exact hbooks.step htime hs
  exact Reach.invariant (fun s hs => Fresh.books hs) hstep h

/-- At one limit, what is released within a window is no more than the limit for the window, the delays and a burst, and one call. However the limit
is set, what is released under one was booked in full at the limit that was read, and is due. -/
theorem released_bytes_bounded :
    (∀ (L : ℕ) (s : RateLimiter), 0 < L → SteadyRun L s → ∀ a w δ : ℕ, (∀ r ∈ s.released, ∀ b ∈ r.booking, r.time ≤ b.charge.due + δ) →
      ((s.releasedIn a w).map Release.bytes).sum = 0 ∨
        ∃ b ∈ s.bookings, ((s.releasedIn a w).map Release.bytes).sum * 1000000 ≤ L * (w + δ + burstWindowUs) + b.charge.bytes * 1000000) ∧
    (∀ (L : ℕ) (s : RateLimiter), TunedRun L s → ∀ r ∈ s.released, (r.booking = none ∧ r.limitRead = 0) ∨
      ∃ b, r.booking = some b ∧ b ∈ s.bookings ∧ b.Full ∧ b.call = r.call ∧ b.charge.bytes = r.bytes ∧ b.limit = r.limitRead ∧ b.epoch = r.seen ∧
        b.charge.due ≤ r.time) := by
  constructor
  · intro L s hL hrun a w δ hlate
    obtain ⟨hsteady, hbooks⟩ := hrun.invariant hL
    exact hsteady.window_bound hbooks hlate
  · intro L s hrun r hr
    rcases hrun.books.released r hr with hfree | ⟨b, hb, hpays, hdue⟩
    · exact .inl hfree
    · exact .inr ⟨b, hb, hpays.mem, hpays.full, hpays.call, hpays.bytes, hpays.limit, hpays.seen, hdue⟩

/-- A limiter that was made two seconds ago. -/
def twoSecondsOld (limit : ℕ) : RateLimiter := ⟨limit, ⟨0, 0⟩, 2000000, [], [], [], []⟩

theorem fresh_twoSecondsOld (limit : ℕ) : Fresh limit (twoSecondsOld limit) := ⟨rfl, rfl, rfl, rfl, rfl, rfl⟩

/-- A call takes some of its steps. -/
def steps (i n : ℕ) : List LimiterAction := List.replicate n (.step i)

/-- Two calls for three megabytes each at a megabyte a second, one after the other. -/
def twoCalls : List LimiterAction :=
  List.flatten [[.acquire 3000000], steps 0 8, [.tick 1000000, .timer 0, .acquire 3000000], steps 1 8, [.tick 3000000, .timer 1]]

/-- Two releases three seconds apart. -/
theorem released_bytes_bounded_two : ∃ s, SteadyRun 1000000 s ∧ s.released.map Release.time = [3000000, 6000000] ∧
    (((s.releasedIn 3000000 3000000).map Release.bytes).sum = 0 ∨ ∃ b ∈ s.bookings,
      ((s.releasedIn 3000000 3000000).map Release.bytes).sum * 1000000 ≤ 1000000 * (3000000 + 0 + burstWindowUs) + b.charge.bytes * 1000000) := by
  have hrun : ((runActions (fun s a => if Untuned a = true ∧ s.InTime a = true then s.step a else none) (twoSecondsOld 1000000) twoCalls).map fun s =>
      (s.released.map Release.time, s.released.all fun r => r.booking.all fun b => r.time ≤ b.charge.due + 0)) =
        some ([3000000, 6000000], true) := by
    decide +kernel
  obtain ⟨s, hs, heq⟩ := Option.map_eq_some_iff.mp hrun
  obtain ⟨htimes, hlate⟩ := Prod.mk.inj heq
  have hsteady : SteadyRun 1000000 s := Reach.runGuarded hs (.init (fresh_twoSecondsOld 1000000))
  refine ⟨s, hsteady, htimes, released_bytes_bounded.1 1000000 s (by decide) hsteady 3000000 3000000 0 ?_⟩
  intro r hr b hb
  have hall := List.all_eq_true.mp hlate r hr
  rw [Option.mem_def.mp hb] at hall
  exact of_decide_eq_true hall

/-- Three calls book one after the other, and each loses time before it computes its deadline: all three deadlines are the same. -/
def threeAtOnce : List LimiterAction :=
  List.flatten [[.acquire 3000000, .acquire 3000000, .acquire 3000000], steps 0 5, steps 1 5, steps 2 8, [.tick 3000000], steps 1 3, [.tick 3000000],
    steps 0 3, [.tick 1000000, .timer 0, .timer 1, .timer 2]]

/-- The limit is changed while a call sleeps, and its timer is looked at first. -/
def retunedSleeper : List LimiterAction :=
  List.flatten [[.acquire 3000000], steps 0 8, [.setLimit 500000, .setStep 0, .setStep 0, .setStep 0, .tick 1000000, .timer 0]]

/-- Calls that go on exactly at their deadlines can still go at one time, and a call can go in an epoch it was not charged to. -/
theorem released_bytes_unbounded :
    (¬ ∀ (L : ℕ) (s : RateLimiter), 0 < L → Reach (Fresh L) (fun s s' => ∃ a, (Untuned a = true ∧ s.InTime a = true ∧ s.Punctual a = true) ∧
        s.step a = some s') s → ∀ a w : ℕ, ((s.releasedIn a w).map Release.bytes).sum = 0 ∨
          ∃ b ∈ s.bookings, ((s.releasedIn a w).map Release.bytes).sum * 1000000 ≤ L * (w + burstWindowUs) + b.charge.bytes * 1000000) ∧
    ¬ ∀ (L : ℕ) (s : RateLimiter), Reach (Fresh L) (fun s s' => ∃ a, (s.InTime a = true ∧ s.Punctual a = true) ∧ s.step a = some s') s →
        ∀ r ∈ s.released, 0 < r.limitBps → ∃ b, r.booking = some b ∧ b ∈ s.bookings ∧ b.Full ∧ b.charge.bytes = r.bytes ∧ b.epoch = r.epoch := by
  constructor
  · intro h
    have hrun : ((runActions (fun s a => if Untuned a = true ∧ s.InTime a = true ∧ s.Punctual a = true then s.step a else none)
        (twoSecondsOld 1000000) threeAtOnce).map fun s =>
          (((s.releasedIn 9000000 0).map Release.bytes).sum, s.bookings.all fun b => b.charge.bytes = 3000000)) = some (9000000, true) := by
      decide +kernel
    obtain ⟨s, hs, heq⟩ := Option.map_eq_some_iff.mp hrun
    obtain ⟨hsum, hbytes⟩ := Prod.mk.inj heq
    rcases h 1000000 s (by decide) (Reach.runGuarded hs (.init (fresh_twoSecondsOld 1000000))) 9000000 0 with hzero | ⟨b, hb, hbound⟩
    · rw [hsum] at hzero
      cases hzero
    · have hsize := of_decide_eq_true (List.all_eq_true.mp hbytes b hb)
      rw [hsum, hsize] at hbound
      exact absurd hbound (by decide)
  · intro h
    have hrun : ((runActions (fun s a => if s.InTime a = true ∧ s.Punctual a = true then s.step a else none)
        (twoSecondsOld 1000000) retunedSleeper).map fun s => s.released.map fun r => (r.limitBps, r.epoch, r.booking.map Booking.epoch)) =
          some [(500000, 1, some 0)] := by
      decide +kernel
    obtain ⟨s, hs, hreleased⟩ := Option.map_eq_some_iff.mp hrun
    obtain ⟨r, hr, heq⟩ : ∃ r ∈ s.released, (r.limitBps, r.epoch, r.booking.map Booking.epoch) = (500000, 1, some 0) :=
      List.mem_map.mp (hreleased ▸ List.mem_singleton_self _)
    simp only [Prod.mk.injEq] at heq
    obtain ⟨hlimit, hepoch, hbooked⟩ := heq
    obtain ⟨b, hb, -, -, -, hsame⟩ := h 1000000 s (Reach.runGuarded hs (.init (fresh_twoSecondsOld 1000000))) r hr (by rw [hlimit]; decide)
    rw [hb, Option.map_some, Option.some.injEq, hsame, hepoch] at hbooked
    cases hbooked

end RateLimiter

end Util

end Risuko
