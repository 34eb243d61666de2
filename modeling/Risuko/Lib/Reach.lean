import Mathlib.Tactic

/-!
# Reachable states

A transition system is a set of initial states and a step relation. Its safety properties are proved by one rule: what holds
initially and is kept by every step holds in every reachable state (`Reach.invariant`).
-/

namespace Risuko

variable {σ : Type*}

/-- The states a system can reach: an initial state, and whatever a step makes of a state it can reach. -/
inductive Reach (init : σ → Prop) (step : σ → σ → Prop) : σ → Prop where
  | init {s : σ} : init s → Reach init step s
  | step {s s' : σ} : Reach init step s → step s s' → Reach init step s'

/-- The invariant rule: what holds initially and is kept by every step from a state where it holds, holds in every reachable
state. -/
theorem Reach.invariant {init : σ → Prop} {step : σ → σ → Prop} {inv : σ → Prop} (h0 : ∀ s, init s → inv s)
    (hs : ∀ s s', inv s → step s s' → inv s') {s : σ} (h : Reach init step s) : inv s := by
  induction h with
  | init hi => exact h0 _ hi
  | step _ hst ih => exact hs _ _ ih hst

/-- Fewer steps reach no more. -/
theorem Reach.mono {init : σ → Prop} {step step' : σ → σ → Prop} (hs : ∀ s s', step s s' → step' s s') {s : σ} (h : Reach init step s) :
    Reach init step' s := by
  induction h with
  | init hi => exact .init hi
  | step _ hst ih => exact .step ih (hs _ _ hst)

/-! ## Runs with their states -/

/-- The runs of a system, each as the list of its states with the latest first. -/
inductive Trace (init : σ → Prop) (step : σ → σ → Prop) : List σ → Prop where
  | init {s : σ} : init s → Trace init step [s]
  | step {s s' : σ} {past : List σ} : Trace init step (s :: past) → step s s' → Trace init step (s' :: s :: past)

variable {init : σ → Prop} {step : σ → σ → Prop}

/-- The invariant rule for what is said of the latest state and of those before it. -/
theorem Trace.invariant {I : σ → List σ → Prop} (h0 : ∀ s, init s → I s []) (hs : ∀ s s' past, I s past → step s s' → I s' (s :: past))
    {s : σ} {past : List σ} (h : Trace init step (s :: past)) : I s past := by
  induction past generalizing s with
  | nil =>
    cases h with
    | init hi => exact h0 s hi
  | cons before past ih =>
    cases h with
    | step hrun hst => exact hs before s past (ih hrun) hst

/-- A run leads to a state that can be reached. -/
theorem Trace.reach {s : σ} {past : List σ} (h : Trace init step (s :: past)) : Reach init step s :=
  h.invariant (I := fun s _ => Reach init step s) (fun _ hi => .init hi) fun _ _ _ hreach hst => .step hreach hst

/-- A run leads to every state that can be reached. -/
theorem Reach.trace {s : σ} (h : Reach init step s) : ∃ past, Trace init step (s :: past) := by
  induction h with
  | init hi => exact ⟨[], .init hi⟩
  | step _ hst ih =>
    obtain ⟨past, hpast⟩ := ih
    exact ⟨_, .step hpast hst⟩

/-! ## Runs of actions -/

variable {α : Type*}

/-- Take actions one after the other. -/
def runActions (step : σ → α → Option σ) (s : σ) : List α → Option σ
  | [] => some s
  | a :: rest => (step s a).bind fun s' => runActions step s' rest

/-- Where each of some actions is a step from any state, they lead from a reachable state to a reachable one. -/
theorem Reach.foldl {init : σ → Prop} {step : σ → σ → Prop} {f : σ → α → σ} {s : σ} {L : List α} (hs : Reach init step s)
    (hstep : ∀ s, ∀ a ∈ L, step s (f s a)) : Reach init step (L.foldl f s) := by
  induction L generalizing s with
  | nil => exact hs
  | cons a rest ih => exact ih (.step hs (hstep s a List.mem_cons_self)) fun s b hb => hstep s b (List.mem_cons_of_mem _ hb)

/-- Whatever actions lead to from a reachable state is reachable. -/
theorem Reach.runActions {init : σ → Prop} {step : σ → α → Option σ} {s s' : σ} {L : List α}
    (h : runActions step s L = some s') (hs : Reach init (fun s s' => ∃ a, step s a = some s') s) :
    Reach init (fun s s' => ∃ a, step s a = some s') s' := by
  induction L generalizing s with
  | nil =>
    cases h
    exact hs
  | cons a rest ih =>
    obtain ⟨next, hnext, hrest⟩ := Option.bind_eq_some_iff.mp h
    exact ih hrest (.step hs ⟨a, hnext⟩)

/-- The same for steps under a condition: a run that stops at an action which breaks it. -/
theorem Reach.runGuarded {init : σ → Prop} {step : σ → α → Option σ} {ok : σ → α → Prop} [∀ s a, Decidable (ok s a)] {s s' : σ}
    {L : List α} (h : Risuko.runActions (fun s a => if ok s a then step s a else none) s L = some s')
    (hs : Reach init (fun s s' => ∃ a, ok s a ∧ step s a = some s') s) :
    Reach init (fun s s' => ∃ a, ok s a ∧ step s a = some s') s' := by
  induction L generalizing s with
  | nil =>
    cases h
    exact hs
  | cons a rest ih =>
    obtain ⟨next, hnext, hrest⟩ := Option.bind_eq_some_iff.mp h
    dsimp only at hnext
    split at hnext
    · rename_i hok
      exact ih hrest (.step hs ⟨a, hok, hnext⟩)
    · cases hnext

end Risuko
