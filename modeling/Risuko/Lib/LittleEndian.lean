import Mathlib.Tactic

/-!
# Numbers in bytes, the lowest first

`toLe n x` is the low `n` bytes of `x`, and `ofLe` reads bytes back. They are inverse to each other where the number fits into the
bytes.
-/

namespace Risuko

/-- The number that bytes stand for, the lowest byte first. -/
def ofLe : List UInt8 → ℕ
  | [] => 0
  | b :: rest => b.toNat + 256 * ofLe rest

/-- The low bytes of a number, the lowest first. -/
def toLe : ℕ → ℕ → List UInt8
  | 0, _ => []
  | n + 1, x => UInt8.ofNat x :: toLe n (x / 256)

end Risuko
