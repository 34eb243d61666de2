import Mathlib.Tactic.Common

/-!
# Stream ciphers

A stream cipher is a state that yields one byte of keystream after the other. To apply it to a byte string is to add the keystream to
the bytes and to move the state past them. Applying it to two strings one after the other is applying it to both together.
-/

namespace Risuko

namespace Keystream

variable {σ : Type*} (next : σ → UInt8 × σ)

/-- Apply the keystream from a state on: the bytes that come out. -/
def apply : σ → List UInt8 → List UInt8
  | _, [] => []
  | s, b :: bs => (b ^^^ (next s).1) :: apply (next s).2 bs

/-- The state past a byte string. -/
def after (s : σ) (bs : List UInt8) : σ := bs.foldl (fun s _ => (next s).2) s

@[simp] theorem length_apply (s : σ) (bs : List UInt8) : (apply next s bs).length = bs.length := by
  induction bs generalizing s with
  | nil => rfl
  | cons b bs ih => rw [apply, List.length_cons, List.length_cons, ih]

theorem apply_append (s : σ) (as bs : List UInt8) : apply next s (as ++ bs) = apply next s as ++ apply next (after next s as) bs := by
  induction as generalizing s with
  | nil => rfl
  | cons a as ih =>
    rw [List.cons_append, apply, apply, List.cons_append, ih]
    rfl

theorem after_append (s : σ) (as bs : List UInt8) : after next s (as ++ bs) = after next (after next s as) bs := List.foldl_append ..

end Keystream

end Risuko
