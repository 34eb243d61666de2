import Risuko.Lib.VirtualTime

/-!
# The rate limiter

`RateLimiter` of `limiter.rs`: calls of `acquire` and of `set_limit` that take their steps in any order, and a clock that goes on between any two of
them. A step is one access to a word that the calls share, one reading of the clock, or the return. The clock is in microseconds since the start. What
was booked and what was released is kept as well, and read by no step.
-/

namespace Risuko

namespace Util

open VirtualTime (Charge)

def burstWindowUs : ℕ := 2000000

def epochShift : ℕ := 48

def timeMask : ℕ := 2 ^ epochShift - 1

/-- `state`: the epoch is in the high bits, the virtual time in the low ones. -/
structure Word where
  epoch : ℕ
  va : ℕ
  deriving DecidableEq

/-- The cost of a request, in microseconds, rounded up. -/
def fullCost (bytes limit : ℕ) : ℕ := (bytes * 1000000 + limit - 1) / limit

/-- `cost_us`, a word of 64 bits. -/
def costUs (bytes limit : ℕ) : ℕ := fullCost bytes limit % 2 ^ 64

/-- The virtual time that the cost of a request is put on. -/
def baseOf (cur : Word) (nowUs : ℕ) : ℕ := max cur.va (nowUs - burstWindowUs)

/-- The new virtual time. -/
def newVa (cur : Word) (nowUs cost : ℕ) : ℕ := min (baseOf cur nowUs + cost) timeMask

/-- A swap that was made: the call, the epoch and the limit it was made with, and what was charged. -/
structure Booking where
  call : ℕ
  epoch : ℕ
  limit : ℕ
  charge : Charge
  deriving DecidableEq

/-- Where a call of `acquire` is: before it reads the epoch, the limit, the clock and the word, before its swap, before it returns without a wait,
before it computes its deadline, before it listens, before it looks at the epoch again, in its sleep with or without a notification, or behind its
end. -/
inductive Phase where
  | epoch
  | limit (epoch : ℕ)
  | clock (epoch limit : ℕ)
  | load (epoch limit nowUs : ℕ)
  | swap (epoch limit nowUs : ℕ) (cur : Word)
  | granted
  | deadline (epoch waitUs : ℕ)
  | listen (epoch deadline : ℕ)
  | check (epoch deadline : ℕ) (woken : Bool)
  | sleep (epoch deadline : ℕ) (woken : Bool)
  | done
  deriving DecidableEq

/-- A call of `acquire`, the limit it has read last, its last swap, and the epoch of the state when it last looked at it. -/
structure Acquire where
  bytes : ℕ
  phase : Phase
  limitRead : ℕ
  booking : Option Booking
  seen : ℕ
  deriving DecidableEq

/-- A call is told by `notify_waiters`, if it listens. -/
def Acquire.notify (c : Acquire) : Acquire :=
  match c.phase with
  | .check epoch deadline _ => { c with phase := .check epoch deadline true }
  | .sleep epoch deadline _ => { c with phase := .sleep epoch deadline true }
  | _ => c

inductive SetPhase where
  | swap
  | bump
  | notify
  | done
  deriving DecidableEq

/-- A call of `set_limit`. -/
structure SetLimit where
  bps : ℕ
  phase : SetPhase
  deriving DecidableEq

/-- A return of `acquire`, with the limit and the epoch at its time. -/
structure Release where
  call : ℕ
  bytes : ℕ
  time : ℕ
  limitBps : ℕ
  epoch : ℕ
  limitRead : ℕ
  booking : Option Booking
  seen : ℕ
  deriving DecidableEq

structure RateLimiter where
  limitBps : ℕ
  state : Word
  clock : ℕ
  calls : List Acquire
  setters : List SetLimit
  bookings : List Booking
  released : List Release
  deriving DecidableEq

inductive LimiterAction where
  | acquire (bytes : ℕ)
  | step (i : ℕ)
  | fail (i : ℕ)
  | timer (i : ℕ)
  | notified (i : ℕ)
  | setLimit (bps : ℕ)
  | setStep (j : ℕ)
  | tick (us : ℕ)

namespace RateLimiter

def setCall (s : RateLimiter) (i : ℕ) (c : Acquire) : RateLimiter := { s with calls := s.calls.set i c }

/-- `acquire` returns. -/
def release (s : RateLimiter) (i : ℕ) (c : Acquire) : RateLimiter :=
  { s.setCall i { c with phase := .done } with released := s.released ++ [⟨i, c.bytes, s.clock, s.limitBps, s.state.epoch, c.limitRead, c.booking,
      c.seen⟩] }

/-- `compare_exchange_weak` of `reserve`, when it succeeds. -/
def book (s : RateLimiter) (i : ℕ) (c : Acquire) (epoch limit nowUs : ℕ) (cur : Word) : RateLimiter :=
  let after := newVa cur nowUs (costUs c.bytes limit)
  let booking : Booking := ⟨i, epoch, limit, ⟨c.bytes, nowUs, baseOf cur nowUs, after⟩⟩
  let phase : Phase := if after - nowUs = 0 then .granted else .deadline epoch (after - nowUs)
  { s.setCall i { c with phase := phase, booking := some booking, seen := epoch } with
    state := ⟨epoch, after⟩, bookings := s.bookings ++ [booking] }

/-- A step of `acquire`, with that of `reserve`. -/
def acquireStep (s : RateLimiter) (i : ℕ) (c : Acquire) : Option RateLimiter :=
  match c.phase with
  | .epoch => some (s.setCall i { c with phase := .limit s.state.epoch })
  | .limit epoch =>
    if s.limitBps = 0 then some (s.setCall i { c with phase := .granted, limitRead := 0, booking := none })
    else some (s.setCall i { c with phase := .clock epoch s.limitBps, limitRead := s.limitBps })
  | .clock epoch limit => some (s.setCall i { c with phase := .load epoch limit s.clock })
  | .load epoch limit nowUs =>
    if s.state.epoch ≠ epoch then some (s.setCall i { c with phase := .epoch })
    else some (s.setCall i { c with phase := .swap epoch limit nowUs s.state })
  | .swap epoch limit nowUs cur =>
    if s.state = cur then some (s.book i c epoch limit nowUs cur) else some (s.setCall i { c with phase := .clock epoch limit })
  | .granted => some (s.release i c)
  | .deadline epoch waitUs => some (s.setCall i { c with phase := .listen epoch (s.clock + waitUs) })
  | .listen epoch deadline => some (s.setCall i { c with phase := .check epoch deadline false })
  | .check epoch deadline woken =>
    if s.state.epoch ≠ epoch then some (s.setCall i { c with phase := .epoch, seen := s.state.epoch })
    else some (s.setCall i { c with phase := .sleep epoch deadline woken, seen := s.state.epoch })
  | .sleep _ _ _ => none
  | .done => none

/-- A step of `set_limit`. -/
def setLimitStep (s : RateLimiter) (j : ℕ) (t : SetLimit) : Option RateLimiter :=
  match t.phase with
  | .swap =>
    if s.limitBps ≠ t.bps then some { s with limitBps := t.bps, setters := s.setters.set j { t with phase := .bump } }
    else some { s with setters := s.setters.set j { t with phase := .done } }
  | .bump => some { s with state := ⟨(s.state.epoch + 1) % 2 ^ 16, 0⟩, setters := s.setters.set j { t with phase := .notify } }
  | .notify => some { s with calls := s.calls.map Acquire.notify, setters := s.setters.set j { t with phase := .done } }
  | .done => none

def step (s : RateLimiter) : LimiterAction → Option RateLimiter
  | .acquire bytes => some { s with calls := s.calls ++ [⟨bytes, if bytes = 0 then .done else .epoch, 0, none, 0⟩] }
  | .step i =>
    match s.calls[i]? with
    | none => none
    | some c => s.acquireStep i c
  | .fail i =>
    match s.calls[i]? with
    | none => none
    | some c =>
      match c.phase with
      | .swap epoch limit _ _ => some (s.setCall i { c with phase := .clock epoch limit })
      | _ => none
  | .timer i =>
    match s.calls[i]? with
    | none => none
    | some c =>
      match c.phase with
      | .sleep _ deadline _ => if deadline ≤ s.clock then some (s.release i c) else none
      | _ => none
  | .notified i =>
    match s.calls[i]? with
    | none => none
    | some c =>
      match c.phase with
      | .sleep epoch deadline true => some (s.setCall i { c with phase := .listen epoch deadline })
      | _ => none
  | .setLimit bps => some { s with setters := s.setters ++ [⟨bps, .swap⟩] }
  | .setStep j =>
    match s.setters[j]? with
    | none => none
    | some t => s.setLimitStep j t
  | .tick us => some { s with clock := s.clock + us }

/-- `new`, with a clock that has gone on. -/
def Fresh (limit : ℕ) (s : RateLimiter) : Prop :=
  s.limitBps = limit ∧ s.state = ⟨0, 0⟩ ∧ s.calls = [] ∧ s.setters = [] ∧ s.bookings = [] ∧ s.released = []

/-- The virtual time stays below its 48 bits. -/
def InTime (s : RateLimiter) : LimiterAction → Bool
  | .step i =>
    match s.calls[i]? with
    | none => true
    | some c =>
      match c.phase with
      | .swap _ limit nowUs cur => s.state ≠ cur || baseOf cur nowUs + fullCost c.bytes limit < 2 ^ epochShift
      | _ => true
  | _ => true

/-- No call of `set_limit`. -/
def Untuned : LimiterAction → Bool
  | .setLimit _ => false
  | _ => true

/-- A call that sleeps goes on exactly at its deadline. -/
def Punctual (s : RateLimiter) : LimiterAction → Bool
  | .timer i =>
    match s.calls[i]? with
    | none => true
    | some c =>
      match c.phase with
      | .sleep _ deadline _ => s.clock = deadline
      | _ => true
  | _ => true

end RateLimiter

end Util

end Risuko
