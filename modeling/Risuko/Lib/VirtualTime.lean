import Mathlib.Tactic

/-!
# Requests charged to a virtual time

A rate is kept by a virtual time that each request moves on by its cost. Requests that come late move it from a burst before their own time. What is
due in a window of time is bounded by the rate and the burst, up to one request (`VirtualTime.window_bound`).
-/

namespace Risuko

namespace VirtualTime

/-- A request: its size, when it came, and the virtual time before and after it. -/
structure Charge where
  bytes : ℕ
  now : ℕ
  base : ℕ
  after : ℕ
  deriving DecidableEq

/-- When a request may go. -/
def Charge.due (c : Charge) : ℕ := max c.after c.now

/-- A request costs what the rate says, from a burst before its time at the earliest. The rate is of sizes in a unit of time. -/
structure Charge.Fair (rate unit burst : ℕ) (c : Charge) : Prop where
  base_le : c.base ≤ c.after
  cost : c.bytes * unit ≤ rate * (c.after - c.base)
  burst : c.now ≤ c.base + burst

/-- Requests one after the other on the virtual time. -/
def Chained (L : List Charge) : Prop := L.Pairwise fun c d => c.after ≤ d.base

/-- Costs do not overlap. -/
theorem sum_cost_le {L : List Charge} (hL : Chained L) {lower upper : ℕ} (hbase : ∀ c ∈ L, c.base ≤ c.after) (hlower : ∀ c ∈ L, lower ≤ c.base)
    (hupper : ∀ c ∈ L, c.after ≤ upper) : (L.map fun c => c.after - c.base).sum ≤ upper - lower := by
  induction L generalizing lower with
  | nil => exact Nat.zero_le _
  | cons c L ih =>
    obtain ⟨hc, hL⟩ := List.pairwise_cons.mp hL
    obtain ⟨hbasec, hbase⟩ := List.forall_mem_cons.mp hbase
    obtain ⟨hlowerc, -⟩ := List.forall_mem_cons.mp hlower
    obtain ⟨hupperc, hupper⟩ := List.forall_mem_cons.mp hupper
    have hrest := ih hL hbase hc hupper
    rw [List.map_cons, List.sum_cons]
    omega

/-- Sizes are paid for by costs. -/
theorem sum_bytes_le {rate unit burst : ℕ} {L : List Charge} (hfair : ∀ c ∈ L, c.Fair rate unit burst) :
    (L.map Charge.bytes).sum * unit ≤ rate * (L.map fun c => c.after - c.base).sum := by
  induction L with
  | nil => simp
  | cons c L ih =>
    obtain ⟨hc, hfair⟩ := List.forall_mem_cons.mp hfair
    rw [List.map_cons, List.sum_cons, List.map_cons, List.sum_cons, Nat.add_mul, Nat.mul_add]
    exact Nat.add_le_add hc.cost (ih hfair)

/-- What is due in a window is at most what the rate lets through in the window and the burst, and one request. -/
theorem window_bound {rate unit burst a w : ℕ} {L : List Charge} (hL : Chained L) (hfair : ∀ c ∈ L, c.Fair rate unit burst)
    (hwindow : ∀ c ∈ L, a ≤ c.due ∧ c.due ≤ a + w) :
    L = [] ∨ ∃ c ∈ L, (L.map Charge.bytes).sum * unit ≤ rate * (w + burst) + c.bytes * unit := by
  cases L with
  | nil => exact .inl rfl
  | cons c L =>
    right
    refine ⟨c, List.mem_cons_self, ?_⟩
    have hupper : ∀ d ∈ c :: L, d.after ≤ a + w := fun d hd => Nat.le_trans (Nat.le_max_left _ _) (hwindow d hd).2
    have hbase : ∀ d ∈ c :: L, d.base ≤ d.after := fun d hd => (hfair d hd).base_le
    obtain ⟨hchain, hrest⟩ := List.pairwise_cons.mp hL
    rcases Nat.lt_or_ge c.after a with hearly | hlate
    · -- the first request came in the window, so its cost begins a burst before the window at the earliest
      have hnow : a ≤ c.now := by
        have hdue := (hwindow c List.mem_cons_self).1
        unfold Charge.due at hdue
        omega
      have hburst := (hfair c List.mem_cons_self).burst
      have hlower : ∀ d ∈ c :: L, c.base ≤ d.base := by
        intro d hd
        rcases List.mem_cons.mp hd with rfl | hd
        · exact Nat.le_refl _
        · exact Nat.le_trans (hbase c List.mem_cons_self) (hchain d hd)
      have hcosts := sum_cost_le hL hbase hlower hupper
      calc ((c :: L).map Charge.bytes).sum * unit ≤ rate * ((c :: L).map fun d => d.after - d.base).sum := sum_bytes_le hfair
        _ ≤ rate * (w + burst) := Nat.mul_le_mul_left _ (by omega)
        _ ≤ rate * (w + burst) + c.bytes * unit := Nat.le_add_right _ _
    · have hcosts := sum_cost_le hrest (fun d hd => hbase d (List.mem_cons_of_mem _ hd)) hchain fun d hd => hupper d (List.mem_cons_of_mem _ hd)
      have hbytes := sum_bytes_le fun d hd => hfair d (List.mem_cons_of_mem _ hd)
      have hfits : rate * (L.map fun d => d.after - d.base).sum ≤ rate * (w + burst) := Nat.mul_le_mul_left _ (by omega)
      rw [List.map_cons, List.sum_cons, Nat.add_mul]
      omega

end VirtualTime

end Risuko
