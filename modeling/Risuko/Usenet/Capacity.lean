import Risuko.Lib.OrdMap
import Risuko.Lib.Reach

/-!
# The connections of a provider

`ProviderConnectionGate` of `usenet_transport.rs`, with the calls of `acquire` and `try_acquire` and the leases that they return. A step
is what one call does under the lock of the gate, or between two such sections: a signal is sent after the lock was given back.
-/

namespace Risuko

namespace Usenet

structure ProviderConnectionGateState where
  nextTicket : ℕ
  waiting : OrdMap ℕ ℕ
  leased : OrdMap ℕ ℕ

namespace ProviderConnectionGateState

/-- The limits that the tickets carry. -/
def limits (s : ProviderConnectionGateState) : List ℕ := s.waiting.entries.map Prod.snd ++ s.leased.entries.map Prod.snd

/-- `register_waiter`. -/
def registerWaiter (s : ProviderConnectionGateState) (limit : ℕ) : ℕ × ProviderConnectionGateState :=
  (s.nextTicket,
    { s with nextTicket := (s.nextTicket + 1) % 2 ^ 64, waiting := s.waiting.insert s.nextTicket limit })

/-- `try_promote`: the new state, if there is a promotion. -/
def tryPromote (s : ProviderConnectionGateState) (ticket : ℕ) : Option ProviderConnectionGateState :=
  match s.waiting.first? with
  | none => none
  | some (first, snapshotLimit) =>
    if first ≠ ticket then none
    else
      s.limits.min?.bind fun limit =>
        if limit ≤ s.leased.size then none
        else some { s with waiting := s.waiting.erase ticket, leased := s.leased.insert ticket snapshotLimit }

/-- `cancel_waiter`, and whether the ticket was waiting. -/
def cancelWaiter (s : ProviderConnectionGateState) (ticket : ℕ) : Bool × ProviderConnectionGateState :=
  (s.waiting.contains ticket, { s with waiting := s.waiting.erase ticket })

/-- `release`, and whether the ticket was leased. -/
def release (s : ProviderConnectionGateState) (ticket : ℕ) : Bool × ProviderConnectionGateState :=
  (s.leased.contains ticket, { s with leased := s.leased.erase ticket })

end ProviderConnectionGateState

/-- Where a call is, or the lease that it returned. -/
inductive AcquirePhase where
  /-- Registered, and the signal is not sent yet. -/
  | registered
  /-- Before `subscribe`. -/
  | subscribing
  /-- Before `try_promote`. -/
  | attempting
  /-- After a `try_promote` that failed: in `changed`, or about to drop its waiter. -/
  | refused
  /-- Promoted, and the signal is not sent yet. -/
  | promoted
  /-- Returned, with a lease that lives. -/
  | leased
  /-- The ticket is gone, and the signal is not sent yet. -/
  | leaving
  | ended
  deriving DecidableEq

/-- Whether a signal is to be sent next. -/
def AcquirePhase.owesSignal : AcquirePhase → Bool
  | .registered | .promoted | .leaving => true
  | _ => false

def AcquirePhase.isWaiting : AcquirePhase → Bool
  | .registered | .subscribing | .attempting | .refused => true
  | _ => false

def AcquirePhase.isLeased : AcquirePhase → Bool
  | .promoted | .leased => true
  | _ => false

/-- A call of `acquire`, or of `try_acquire`, which does not wait. What its receiver has seen, and the last attempt that failed, go by the
number of the signals sent until then. -/
structure AcquireCall where
  ticket : ℕ
  waits : Bool
  phase : AcquirePhase
  seen : ℕ
  failedAt : Option ℕ

structure ProviderConnectionGate where
  state : ProviderConnectionGateState
  sent : ℕ
  calls : List AcquireCall

namespace ProviderConnectionGate

def new : ProviderConnectionGate := ⟨⟨0, .empty, .empty⟩, 0, []⟩

/-- What happens next. Calls go by their places in the list. -/
inductive Action where
  | register (limit : ℕ) (waits : Bool)
  | signal (call : ℕ)
  | subscribe (call : ℕ)
  | attempt (call : ℕ)
  | wake (call : ℕ)
  | drop (call : ℕ)

def setCall (s : ProviderConnectionGate) (i : ℕ) (c : AcquireCall) : ProviderConnectionGate := { s with calls := s.calls.set i c }

/-- `signal`. -/
def signal (s : ProviderConnectionGate) (i : ℕ) (c : AcquireCall) : Option ProviderConnectionGate :=
  let s := { s with sent := s.sent + 1 }
  match c.phase with
  | .registered => some (s.setCall i { c with phase := if c.waits then .subscribing else .attempting })
  | .promoted => some (s.setCall i { c with phase := .leased })
  | .leaving => some (s.setCall i { c with phase := .ended })
  | _ => none

/-- `try_promote` of a waiter. -/
def attempt (s : ProviderConnectionGate) (i : ℕ) (c : AcquireCall) : ProviderConnectionGate :=
  match s.state.tryPromote c.ticket with
  | some state => { s with state := state, calls := s.calls.set i { c with phase := .promoted } }
  | none => s.setCall i { c with phase := .refused, failedAt := some s.sent }

/-- The end of a waiter or of a lease, up to its signal. -/
def leave (s : ProviderConnectionGate) (i : ℕ) (c : AcquireCall) (r : Bool × ProviderConnectionGateState) : ProviderConnectionGate :=
  { s with state := r.2, calls := s.calls.set i { c with phase := if r.1 then .leaving else .ended } }

/-- A step of a call. A call of `acquire` is dropped while it waits for a change, one of `try_acquire` drops its waiter. -/
def callStep (s : ProviderConnectionGate) (i : ℕ) (c : AcquireCall) (a : Action) : Option ProviderConnectionGate :=
  match a, c.phase with
  | .signal _, _ => s.signal i c
  | .subscribe _, .subscribing => some (s.setCall i { c with phase := .attempting, seen := s.sent })
  | .attempt _, .attempting => some (s.attempt i c)
  | .wake _, .refused =>
    if c.waits && c.seen ≠ s.sent then some (s.setCall i { c with phase := .attempting, seen := s.sent }) else none
  | .drop _, .refused => some (s.leave i c (s.state.cancelWaiter c.ticket))
  | .drop _, .leased => some (s.leave i c (s.state.release c.ticket))
  | _, _ => none

def step (s : ProviderConnectionGate) (a : Action) : Option ProviderConnectionGate :=
  match a with
  | .register limit waits =>
    let r := s.state.registerWaiter limit
    some { s with state := r.2, calls := s.calls ++ [⟨r.1, waits, .registered, 0, none⟩] }
  | .signal i | .subscribe i | .attempt i | .wake i | .drop i => s.calls[i]?.bind fun c => s.callStep i c a

/-- The gates that any calls lead to, in any order. -/
abbrev Reachable : ProviderConnectionGate → Prop := Reach (· = new) fun s s' => ∃ a, s.step a = some s'

end ProviderConnectionGate

end Usenet

end Risuko
