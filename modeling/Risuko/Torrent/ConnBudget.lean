import Risuko.Lib.OrdMap
import Risuko.Lib.Reach

/-!
# The connection budget

`conn_budget.rs`: one counter of connections that the torrents and the metadata fetches of a session share. A call changes the counter in
one atomic operation, and what it compares it with was read from the limit before. Nothing orders these reads with the changes of the
limit, so that they may return any value it has had.
-/

namespace Risuko

namespace ConnBudget

def metadataReserveMin : ℕ := 8

def metadataReserveMaxFraction : ℕ := 4

/-- `metadata_reserve`: what torrents leave to metadata fetches. -/
def metadataReserve (limit : ℕ) : ℕ := min (max metadataReserveMin (limit / 50)) (limit / metadataReserveMaxFraction)

/-- `torrent_cap` reads the limit twice, and its subtraction wraps around. -/
def torrentCap (limit limit' : ℕ) : ℕ := (2 ^ 64 + limit - metadataReserve limit') % 2 ^ 64

end ConnBudget

open ConnBudget

/-- A budget, the limits it has had with the latest first, and those who hold of it: the guards, and the leases with the connections each
counts. `grown` is what leases have added without asking. -/
structure ConnBudget where
  used : ℕ
  limits : List ℕ
  guards : ℕ
  leases : OrdMap ℕ ℕ
  grown : ℕ

namespace ConnBudget

def new (limit : ℕ) : ConnBudget := ⟨0, [max limit 1], 0, .empty, 0⟩

inductive Action
  | setLimit (limit : ℕ)
  | tryAcquire (limit : ℕ)
  | dropGuard
  | lease (id : ℕ)
  | tryReserve (id limit limit' : ℕ)
  | sync (id current : ℕ)
  | dropLease (id : ℕ)

/-- A call that succeeds: one that is refused changes nothing. -/
def step (b : ConnBudget) : Action → Option ConnBudget
  | .setLimit limit => if limit < 2 ^ 64 then some { b with limits := max limit 1 :: b.limits } else none
  | .tryAcquire limit =>
    if limit ∈ b.limits ∧ b.used < limit then some { b with used := b.used + 1, guards := b.guards + 1 } else none
  | .dropGuard => if 0 < b.guards then some { b with used := b.used - 1, guards := b.guards - 1 } else none
  | .lease id => if b.leases.contains id then none else some { b with leases := b.leases.insert id 0 }
  | .tryReserve id limit limit' =>
    (b.leases.get? id).bind fun held =>
      if limit ∈ b.limits ∧ limit' ∈ b.limits ∧ b.used < torrentCap limit limit' then
        some { b with used := b.used + 1, leases := b.leases.insert id (held + 1) }
      else none
  | .sync id current =>
    (b.leases.get? id).map fun held =>
      { b with
        used := b.used + (current - held) - (held - current)
        leases := b.leases.insert id current
        grown := b.grown + (current - held) }
  | .dropLease id => (b.leases.get? id).map fun held => { b with used := b.used - held, leases := b.leases.erase id }

/-- The connections that the leases count. -/
def leased (b : ConnBudget) : ℕ := b.leases.sumOf fun _ held => held

/-- The states that calls lead to, in any order. -/
def Reachable : ConnBudget → Prop :=
  Reach (fun b => ∃ limit < 2 ^ 64, b = new limit) fun b b' => ∃ a, b.step a = some b'

end ConnBudget

end Risuko
