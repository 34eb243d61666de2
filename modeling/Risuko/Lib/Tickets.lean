import Mathlib.Tactic.Common

/-!
# Numbers taken from several counters

Callers take one number from each of several counters, and each number is one more than the last one given out there. If no caller
takes a number while another one has taken some of its numbers but not all, the caller with the last number of one counter is the
caller with the last number of every counter (`Tickets.last`).
-/

namespace Risuko

variable {ι : Type*}

/-- A caller that has taken numbers from some of the counters only. -/
def HalfTaken (taken : ι → Nat → Option Nat) (i : Nat) : Prop := ∃ a b, (taken a i).isSome = true ∧ taken b i = none

/-- The numbers taken so far: none is above its counter or given twice, the counter is the last number given, and the numbers of a
caller that has not taken all of them are the last ones. -/
structure Tickets (taken : ι → Nat → Option Nat) (counter : ι → Nat) : Prop where
  le : ∀ a i n, taken a i = some n → n ≤ counter a
  unique : ∀ a i j n, taken a i = some n → taken a j = some n → i = j
  holder : ∀ a i n, taken a i = some n → ∃ j, taken a j = some (counter a)
  latest : ∀ i, HalfTaken taken i → ∀ a n, taken a i = some n → n = counter a
  single : ∀ i j, HalfTaken taken i → HalfTaken taken j → i = j
  last : (∀ i, ¬ HalfTaken taken i) → ∀ i a b, taken a i = some (counter a) → taken b i = some (counter b)

namespace Tickets

theorem init (counter : ι → Nat) : Tickets (fun _ _ => none) counter where
  le := nofun
  unique := nofun
  holder := nofun
  latest := nofun
  single := by
    rintro i j ⟨a, b, ha, _⟩
    cases ha
  last := nofun

variable [DecidableEq ι] {taken : ι → Nat → Option Nat} {counter : ι → Nat}

/-- The numbers once `i` has taken one from `a`. -/
def taking (taken : ι → Nat → Option Nat) (counter : ι → Nat) (a : ι) (i : Nat) : ι → Nat → Option Nat :=
  Function.update taken a (Function.update (taken a) i (some (counter a + 1)))

theorem taking_self (a : ι) (i : Nat) : taking taken counter a i a i = some (counter a + 1) := by
  rw [taking, Function.update_self, Function.update_self]

theorem taking_other {a b : ι} {i j : Nat} (h : b ≠ a ∨ j ≠ i) : taking taken counter a i b j = taken b j := by
  unfold taking
  by_cases hb : b = a
  · subst hb
    rw [Function.update_self, Function.update_of_ne (h.resolve_left (fun hn => hn rfl))]
  · rw [Function.update_of_ne hb]

/-- A number of the counter afterwards is the new one or an old one. -/
theorem taking_cases {a b : ι} {i j n : Nat} (h : taking taken counter a i b j = some n) :
    (b = a ∧ j = i ∧ n = counter a + 1) ∨ ((b ≠ a ∨ j ≠ i) ∧ taken b j = some n) := by
  by_cases hbj : b = a ∧ j = i
  · obtain ⟨rfl, rfl⟩ := hbj
    rw [taking_self] at h
    exact .inl ⟨rfl, rfl, (Option.some.inj h).symm⟩
  · rw [not_and_or] at hbj
    rw [taking_other hbj] at h
    exact .inr ⟨hbj, h⟩

/-- Whoever has taken some of its numbers only after a step had so before, or is the one that took the step. -/
theorem halfTaken_taking {a : ι} {i j : Nat} (hne : j ≠ i) (h : HalfTaken (taking taken counter a i) j) : HalfTaken taken j := by
  obtain ⟨b, c, hb, hc⟩ := h
  rw [taking_other (.inr hne)] at hb hc
  exact ⟨b, c, hb, hc⟩

theorem take (h : Tickets taken counter) {a : ι} {i : Nat} (hnew : taken a i = none)
    (hturn : ∀ j, j ≠ i → ¬ HalfTaken taken j) :
    Tickets (taking taken counter a i) (Function.update counter a (counter a + 1)) := by
  have hcounter : ∀ b, counter b ≤ Function.update counter a (counter a + 1) b := by
    intro b
    by_cases hb : b = a
    · subst hb
      rw [Function.update_self]
      exact Nat.le_succ _
    · exact Nat.le_of_eq (Function.update_of_ne hb _ _).symm
  -- the numbers `i` had taken before were the last ones
  have hlatest : ∀ b n, taken b i = some n → n = counter b := by
    intro b n hb
    exact h.latest i ⟨b, a, by rw [hb]; rfl, hnew⟩ b n hb
  have honly : ∀ j, HalfTaken (taking taken counter a i) j → j = i := by
    intro j hj
    by_contra hne
    exact hturn j hne (halfTaken_taking hne hj)
  constructor
  · intro b j n hn
    rcases taking_cases hn with ⟨rfl, _, rfl⟩ | ⟨_, hold⟩
    · exact Nat.le_of_eq (Function.update_self b (counter b + 1) counter).symm
    · exact Nat.le_trans (h.le b j n hold) (hcounter b)
  · intro b j k n hj hk
    rcases taking_cases hj with ⟨rfl, rfl, rfl⟩ | ⟨_, hjold⟩
    · rcases taking_cases hk with ⟨_, rfl, _⟩ | ⟨_, hkold⟩
      · rfl
      · have := h.le _ _ _ hkold
        omega
    · rcases taking_cases hk with ⟨rfl, rfl, rfl⟩ | ⟨_, hkold⟩
      · have := h.le _ _ _ hjold
        omega
      · exact h.unique b j k n hjold hkold
  · intro b j n hn
    by_cases hb : b = a
    · subst hb
      exact ⟨i, by rw [taking_self, Function.update_self]⟩
    · rw [taking_other (.inl hb)] at hn
      obtain ⟨k, hk⟩ := h.holder b j n hn
      exact ⟨k, by rw [taking_other (.inl hb), Function.update_of_ne hb, hk]⟩
  · intro j hj b n hn
    obtain rfl := honly j hj
    rcases taking_cases hn with ⟨rfl, _, rfl⟩ | ⟨hne, hold⟩
    · rw [Function.update_self]
    · rw [Function.update_of_ne (hne.resolve_right (fun hn => hn rfl))]
      exact hlatest b n hold
  · intro j k hj hk
    rw [honly j hj, honly k hk]
  · intro hnone j b c hb
    -- nobody is half way now, so that `i` has all its numbers
    have hall : ∀ d, taking taken counter a i d i = some (Function.update counter a (counter a + 1) d) := by
      intro d
      by_cases hd : d = a
      · subst hd
        rw [taking_self, Function.update_self]
      · have hsome : (taken d i).isSome = true := by
          by_contra hn
          rw [Bool.not_eq_true, Option.isSome_eq_false_iff, Option.isNone_iff_eq_none] at hn
          refine hnone i ⟨a, d, by rw [taking_self]; rfl, ?_⟩
          rw [taking_other (.inl hd), hn]
        obtain ⟨n, hn⟩ := Option.isSome_iff_exists.mp hsome
        rw [taking_other (.inl hd), Function.update_of_ne hd, hn, hlatest d n hn]
    by_cases hj : j = i
    · subst hj
      exact hall c
    · rw [taking_other (.inr hj)] at hb
      by_cases hba : b = a
      · subst hba
        rw [Function.update_self] at hb
        have := h.le _ _ _ hb
        omega
      · have hi := hall b
        rw [taking_other (.inl hba)] at hi
        exact absurd (h.unique b j i _ hb hi) hj

end Tickets

end Risuko
