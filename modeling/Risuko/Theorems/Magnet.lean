import Risuko.Lemmas.Claims
import Risuko.Lib.Reach

/-!
# What fetches of metadata give back

Whatever happens to the fetches, an assembly has reserved the bytes it stores, and the budget counts those of the assemblies that are
alive. The counters of claims come back to zero in every run in which no fetch ends between a claim and the guard.
-/

namespace Risuko

namespace Claims

namespace Share

/-- An assembly that nothing holds has given everything back. -/
def Dropped (s : Share) : Prop := ∀ i a, s.assemblies[i]? = some a → s.alive i = false → a.held = 0

/-- After a sweep no assembly of an ended fetch holds bytes. -/
theorem dropped_sweep (s : Share) : s.sweep.Dropped := by
  intro i a ha hdead
  change s.alive i = false at hdead
  change (s.assemblies.mapIdx _)[i]? = some a at ha
  rw [List.getElem?_mapIdx] at ha
  obtain ⟨b, -, rfl⟩ := Option.map_eq_some_iff.mp ha
  rw [hdead]
  rfl

/-- Assemblies of ended fetches that hold nothing do not change the sum. -/
theorem sum_mapIdx_live (alive : ℕ → Bool) (L : List Assembly) (h : ∀ i a, L[i]? = some a → alive i = false → a.held = 0) :
    (L.mapIdx fun i a => if alive i then a.held else 0).sum = (L.map (·.held)).sum := by
  induction L generalizing alive with
  | nil => rfl
  | cons a L ih =>
    have hfirst : (if alive 0 then a.held else 0) = a.held := by
      cases halive : alive 0 with
      | true => rfl
      | false => exact (h 0 a rfl halive).symm
    rw [List.mapIdx_cons, List.map_cons, List.sum_cons, List.sum_cons, hfirst, ih (fun i => alive (i + 1)) fun i b hb => h (i + 1) b hb]

/-- The bytes of the assemblies that are alive. -/
structure BytesAccounted (s : Share) : Prop where
  held : ∀ i a, s.assemblies[i]? = some a → s.alive i = true → a.held = a.storedBytes
  used : s.used = (s.assemblies.mapIdx fun i a => if s.alive i then a.held else 0).sum
  limit : s.used ≤ s.limit

/-- When every fetch has ended, no piece of any assembly is claimed. -/
def ClaimsReturned (s : Share) : Prop := (∀ x ∈ s.fetches, x.place = .ended) → ∀ a ∈ s.assemblies, ∀ c ∈ a.claimed, c = 0

/-- The counter is what live assemblies hold once those of ended fetches are dropped. -/
theorem Accounts.bytesAccounted {s : Share} (h : Accounts s) (hdropped : Dropped s) : BytesAccounted s where
  held _ a ha _ := h.held a (List.mem_of_getElem? ha)
  used := by
    rw [sum_mapIdx_live _ _ hdropped]
    exact h.used
  limit := h.limit

theorem accounts_new (limit : ℕ) : Accounts (new limit) := ⟨nofun, rfl, Nat.zero_le _⟩

theorem backed_new (limit : ℕ) : Backed (new limit) := ⟨fun _ _ => le_rfl, nofun, nofun⟩

/-- Bytes are accounted for in every run, and claims are returned in every run in which no fetch ends, by a failed send or dropped, while more of what
it has claimed is in no guard. -/
theorem claims_given_back {verified : List UInt8 → Bool} {limit : ℕ} {s : Share} :
    (Reach (· = new limit) (fun s s' => ∃ a, s.step verified a = some s') s → BytesAccounted s) ∧
      (Reach (· = new limit) (fun s s' => ∃ a, s.loses a = false ∧ s.step verified a = some s') s → ClaimsReturned s) := by
  constructor
  · intro h
    have haccounts : Accounts s := by
      refine h.invariant ?_ ?_
      · rintro s rfl
        exact accounts_new limit
      · rintro s s' haccounts ⟨a, hs⟩
        exact haccounts.step hs
    have hdropped : Dropped s := by
      cases h with
      | init hinit =>
        rw [hinit]
        exact nofun
      | step _ hs =>
        obtain ⟨a, hs⟩ := hs
        obtain ⟨after, -, rfl⟩ := Option.map_eq_some_iff.mp hs
        exact dropped_sweep after
    exact haccounts.bytesAccounted hdropped
  · intro h
    have hinv : Backed s := by
      refine h.invariant ?_ ?_
      · rintro s rfl
        exact backed_new limit
      · rintro s s' hbacked ⟨a, hkeeps, hs⟩
        exact hbacked.step hkeeps hs
    exact hinv.returned

/-- A fetch that claims what is missing and whose first send fails. -/
def failedSend (size : ℕ) : List Action := [.attach size, .turn 0, .turn 0, .turn 0, .sent 0 false, .turn 0, .turn 0]

/-- Whether all fetches have ended. -/
def allEnded (s : Share) : Bool := s.fetches.all fun x => match x.place with
  | .ended => true
  | _ => false

theorem ended_of_allEnded {s : Share} (h : s.allEnded = true) : ∀ x ∈ s.fetches, x.place = .ended := by
  intro x hx
  have hx := List.all_eq_true.mp h x hx
  split at hx
  · assumption
  · cases hx

/-- Once the only fetch has ended nothing is claimed. -/
theorem claims_given_back_one : ∃ s : Share, s.fetches ≠ [] ∧ BytesAccounted s ∧ ∀ a ∈ s.assemblies, ∀ c ∈ a.claimed, c = 0 := by
  obtain ⟨s, hrun, hfetches, hall⟩ : ∃ s ∈ runActions (fun s a => if s.loses a = false then s.step (fun _ => true) a else none) (new 100)
      (failedSend 1), s.fetches.isEmpty = false ∧ s.allEnded = true := by
    decide +kernel
  have h : Reach (· = new 100) (fun s s' => ∃ a, s.loses a = false ∧ s.step (fun _ => true) a = some s') s := .runGuarded hrun (.init rfl)
  have h' : Reach (· = new 100) (fun s s' => ∃ a, s.step (fun _ => true) a = some s') s := h.mono fun _ _ ⟨a, _, hs⟩ => ⟨a, hs⟩
  exact ⟨s, List.isEmpty_eq_false_iff.mp hfetches, claims_given_back.1 h', claims_given_back.2 h (ended_of_allEnded hall)⟩

/-- The second of two pieces stays claimed. -/
theorem claims_lost : ¬ ∀ (verified : List UInt8 → Bool) (limit : ℕ) (s : Share),
    Reach (· = new limit) (fun s s' => ∃ a, s.step verified a = some s') s → BytesAccounted s ∧ ClaimsReturned s := by
  intro hclaim
  obtain ⟨s, hrun, hall, hclaimed⟩ : ∃ s ∈ runActions (step fun _ => true) (new 100) (failedSend 16385),
      s.allEnded = true ∧ (s.assemblies.map (·.claimed)) = [[0, 1]] := by
    decide +kernel
  have hback := (hclaim _ _ s (.runActions hrun (.init rfl))).2 (ended_of_allEnded hall)
  obtain ⟨a, ha, hone⟩ : ∃ a ∈ s.assemblies, a.claimed = [0, 1] := by
    obtain ⟨a, ha⟩ := List.exists_mem_of_length_pos (show 0 < s.assemblies.length by
      have := congrArg List.length hclaimed
      rw [List.length_map] at this
      rw [this]
      decide)
    exact ⟨a, ha, List.mem_singleton.mp (hclaimed ▸ List.mem_map_of_mem ha)⟩
  have hzero := hback a ha 1 (by rw [hone]; decide)
  exact absurd hzero (by decide)

end Share

end Claims

end Risuko
