import Mathlib.Tactic

/-!
# Decimal numbers in ASCII

How a natural number is written in decimal (`decimal`), and how a text of digits is read (`parseDigits`): reading gives back what
was written, and a text that has no leading zero is the one that is written for its number.
-/

namespace Risuko

/-- Whether a byte is an ASCII digit. -/
def isAsciiDigit (b : UInt8) : Bool := 48 ≤ b.toNat && b.toNat ≤ 57

/-- The digit of a number below ten. -/
def asciiDigit (d : Nat) : UInt8 := UInt8.ofNat (48 + d)

/-- The number a digit stands for. -/
def digitValue (b : UInt8) : Nat := b.toNat - 48

/-- A number as it is written in decimal. -/
def decimal (n : Nat) : List UInt8 :=
  if n = 0 then [asciiDigit 0] else (Nat.digits 10 n).reverse.map asciiDigit

/-- The number a text of digits stands for; no text that is empty or has another byte stands for one. -/
def parseDigits (ds : List UInt8) : Option Nat :=
  if ds.isEmpty || !ds.all isAsciiDigit then none else some (ds.foldl (fun n d => 10 * n + digitValue d) 0)

/-! ## Single digits -/

theorem toNat_asciiDigit {d : Nat} (h : d < 10) : (asciiDigit d).toNat = 48 + d := by
  unfold asciiDigit
  rw [UInt8.toNat_ofNat']
  exact Nat.mod_eq_of_lt (by omega)

theorem isAsciiDigit_asciiDigit {d : Nat} (h : d < 10) : isAsciiDigit (asciiDigit d) = true := by
  unfold isAsciiDigit
  rw [toNat_asciiDigit h]
  simp only [Bool.and_eq_true, decide_eq_true_eq]
  omega

theorem digitValue_asciiDigit {d : Nat} (h : d < 10) : digitValue (asciiDigit d) = d := by
  unfold digitValue
  rw [toNat_asciiDigit h]
  omega

theorem digitValue_lt {b : UInt8} (h : isAsciiDigit b = true) : digitValue b < 10 := by
  unfold isAsciiDigit at h
  unfold digitValue
  simp only [Bool.and_eq_true, decide_eq_true_eq] at h
  omega

theorem asciiDigit_digitValue {b : UInt8} (h : isAsciiDigit b = true) : asciiDigit (digitValue b) = b := by
  have hlt := digitValue_lt h
  apply UInt8.toNat_inj.mp
  rw [toNat_asciiDigit hlt]
  unfold isAsciiDigit at h
  unfold digitValue
  simp only [Bool.and_eq_true, decide_eq_true_eq] at h
  omega

/-! ## Texts -/

theorem foldl_digits (ds : List UInt8) :
    ds.foldl (fun n d => 10 * n + digitValue d) 0 = Nat.ofDigits 10 (ds.reverse.map digitValue) := by
  induction ds using List.reverseRecOn with
  | nil => rfl
  | append_singleton ds d ih =>
    rw [List.foldl_append, ih]
    simp only [List.foldl_cons, List.foldl_nil, List.reverse_append, List.reverse_singleton, List.cons_append, List.nil_append,
      List.map_cons, Nat.ofDigits_cons]
    exact Nat.add_comm _ _

theorem decimal_ne_nil (n : Nat) : decimal n ≠ [] := by
  unfold decimal
  split
  · simp
  · rename_i h
    simpa using Nat.digits_ne_nil_iff_ne_zero.mpr h

theorem decimal_all (n : Nat) : (decimal n).all isAsciiDigit = true := by
  rw [List.all_eq_true]
  intro b hb
  unfold decimal at hb
  split at hb
  · rw [List.mem_singleton] at hb
    rw [hb]
    exact isAsciiDigit_asciiDigit (by omega)
  · obtain ⟨d, hd, rfl⟩ := List.mem_map.mp hb
    exact isAsciiDigit_asciiDigit (Nat.digits_lt_base (by omega) (List.mem_reverse.mp hd))

/-- Reading gives back the number that was written. -/
theorem parseDigits_decimal (n : Nat) : parseDigits (decimal n) = some n := by
  unfold parseDigits
  have hne : (decimal n).isEmpty = false := by simpa using decimal_ne_nil n
  rw [hne, decimal_all, foldl_digits]
  simp only [Bool.not_true, Bool.or_self, Bool.false_eq_true, if_false, Option.some.injEq]
  unfold decimal
  split
  · rename_i h
    rw [h]
    rfl
  · rw [← List.map_reverse, List.reverse_reverse, List.map_map]
    have hid : (Nat.digits 10 n).map (digitValue ∘ asciiDigit) = Nat.digits 10 n := by
      rw [List.map_congr_left (g := id), List.map_id]
      intro d hd
      exact digitValue_asciiDigit (Nat.digits_lt_base (by omega) hd)
    rw [hid, Nat.ofDigits_digits]

theorem decimal_injective {a b : Nat} (h : decimal a = decimal b) : a = b := by
  have ha := parseDigits_decimal a
  rw [h, parseDigits_decimal] at ha
  exact (Option.some.inj ha).symm

/-- No number is written with a leading zero, zero itself apart. -/
theorem decimal_head_ne_zero {n : Nat} (h : 1 < (decimal n).length) : (decimal n).head? ≠ some (asciiDigit 0) := by
  unfold decimal at h ⊢
  split
  · rename_i hn
    simp [hn] at h
  · rename_i hn
    have hne : Nat.digits 10 n ≠ [] := Nat.digits_ne_nil_iff_ne_zero.mpr hn
    intro hh
    rw [List.head?_map, List.head?_reverse, List.getLast?_eq_getLast_of_ne_nil hne] at hh
    have hlast := Nat.getLast_digit_ne_zero 10 hn
    have hlt : (Nat.digits 10 n).getLast hne < 10 := Nat.digits_lt_base (by omega) (List.getLast_mem hne)
    simp only [Option.map_some, Option.some.injEq] at hh
    have := congrArg digitValue hh
    rw [digitValue_asciiDigit hlt, digitValue_asciiDigit (by omega)] at this
    exact hlast this

/-- A text of digits without a leading zero is what is written for its number. -/
theorem decimal_of_parseDigits {ds : List UInt8} {n : Nat} (h : parseDigits ds = some n)
    (hz : 1 < ds.length → ds.head? ≠ some (asciiDigit 0)) : decimal n = ds := by
  unfold parseDigits at h
  split at h
  · cases h
  · rename_i hds
    simp only [Bool.or_eq_true, List.isEmpty_iff, Bool.not_eq_true', not_or, Bool.not_eq_false, List.all_eq_true] at hds
    obtain ⟨hne, hall⟩ := hds
    cases h
    have hback : ds.map (asciiDigit ∘ digitValue) = ds := by
      rw [List.map_congr_left (g := id), List.map_id]
      intro b hb
      exact asciiDigit_digitValue (hall b hb)
    have hlt : ∀ d ∈ ds.reverse.map digitValue, d < 10 := by
      intro d hd
      obtain ⟨b, hb, rfl⟩ := List.mem_map.mp hd
      exact digitValue_lt (hall b (List.mem_reverse.mp hb))
    rw [foldl_digits]
    by_cases hzero : ds.head? = some (asciiDigit 0)
    · -- A leading zero is the whole text.
      obtain ⟨b, rest, rfl⟩ := List.exists_cons_of_ne_nil hne
      have hrest : rest = [] := by
        by_contra hr
        have := List.length_pos_iff.mpr hr
        exact hz (by simp only [List.length_cons]; omega) hzero
      simp only [List.head?_cons, Option.some.injEq] at hzero
      subst hrest hzero
      rfl
    · have hlast : ∀ hl : ds.reverse.map digitValue ≠ [], (ds.reverse.map digitValue).getLast hl ≠ 0 := by
        intro hl hz0
        obtain ⟨b, rest, rfl⟩ := List.exists_cons_of_ne_nil hne
        simp only [List.reverse_cons, List.map_append, List.map_cons, List.map_nil, List.getLast_append_singleton] at hz0
        apply hzero
        have hb := asciiDigit_digitValue (hall b List.mem_cons_self)
        rw [hz0] at hb
        rw [List.head?_cons, hb]
      have hpos : Nat.ofDigits 10 (ds.reverse.map digitValue) ≠ 0 := by
        intro h0
        have hd := Nat.digits_ofDigits 10 (by omega) _ hlt hlast
        rw [h0, Nat.digits_zero] at hd
        exact hne (by simpa using hd.symm)
      unfold decimal
      rw [if_neg hpos, Nat.digits_ofDigits 10 (by omega) _ hlt hlast, ← List.map_reverse, List.reverse_reverse, List.map_map]
      exact hback

end Risuko
