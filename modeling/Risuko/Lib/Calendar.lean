import Mathlib.Tactic

/-!
# The Gregorian calendar

Leap years, the lengths of the months, and the days counted from one date to another, as the calendar defines them: year after year,
month after month. A later date has more days before it (`days_lt_of_lt`), and the days before a year that begins in March have a closed
form (`marchDays`).
-/

namespace Risuko

namespace Calendar

/-- Whether a year has a 29 February. -/
def leap (y : Nat) : Bool := y % 4 == 0 && (y % 100 != 0 || y % 400 == 0)

/-- The days of a year. -/
def yearLength (y : Nat) : Nat := if leap y then 366 else 365

/-- The days of the month `m`, counted from 1. -/
def monthLength (y m : Nat) : Nat :=
  if m = 2 then if leap y then 29 else 28
  else if m = 4 ∨ m = 6 ∨ m = 9 ∨ m = 11 then 30
  else 31

/-- The days of the `n` years from the year `e` on. -/
def daysOfYears (e : Nat) : Nat → Nat
  | 0 => 0
  | n + 1 => daysOfYears e n + yearLength (e + n)

/-- The days of the first `n` months of a year. -/
def daysOfMonths (y : Nat) : Nat → Nat
  | 0 => 0
  | n + 1 => daysOfMonths y n + monthLength y (n + 1)

/-- A day of a year and a month, and a time of the day. -/
structure DateTime where
  year : Nat
  month : Nat
  day : Nat
  hour : Nat
  minute : Nat
  second : Nat
deriving DecidableEq

namespace DateTime

/-- The date is a date of the calendar and the time a time of a day of 86 400 seconds. -/
structure Valid (t : DateTime) : Prop where
  month : 1 ≤ t.month ∧ t.month ≤ 12
  day : 1 ≤ t.day ∧ t.day ≤ monthLength t.year t.month
  hour : t.hour < 24
  minute : t.minute < 60
  second : t.second < 60

/-- The days from 1 January of the year `e` to the date. -/
def days (e : Nat) (t : DateTime) : Nat := daysOfYears e (t.year - e) + daysOfMonths t.year (t.month - 1) + (t.day - 1)

/-- The seconds from the beginning of the year `e`. -/
def seconds (e : Nat) (t : DateTime) : Nat := t.days e * 86400 + t.hour * 3600 + t.minute * 60 + t.second

/-- The fields from the year down to the second, in the order in which they are compared. -/
def key (t : DateTime) : ℕ ×ₗ ℕ ×ₗ ℕ ×ₗ ℕ ×ₗ ℕ ×ₗ ℕ :=
  toLex (t.year, toLex (t.month, toLex (t.day, toLex (t.hour, toLex (t.minute, t.second)))))

theorem key_lt_iff {t u : DateTime} : t.key < u.key ↔ t.year < u.year ∨ t.year = u.year ∧ (t.month < u.month ∨ t.month = u.month ∧
    (t.day < u.day ∨ t.day = u.day ∧ (t.hour < u.hour ∨ t.hour = u.hour ∧ (t.minute < u.minute ∨ t.minute = u.minute ∧
      t.second < u.second)))) := by
  simp only [key, Prod.Lex.toLex_lt_toLex]

theorem key_injective {t u : DateTime} (h : t.key = u.key) : t = u := by
  simp only [key, EmbeddingLike.apply_eq_iff_eq, Prod.mk.injEq] at h
  obtain ⟨h1, h2, h3, h4, h5, h6⟩ := h
  cases t
  cases u
  simp only at h1 h2 h3 h4 h5 h6
  subst h1 h2 h3 h4 h5 h6
  rfl

end DateTime

/-! ## Counting by year and by month -/

theorem daysOfYears_mono {e n k : Nat} (h : n ≤ k) : daysOfYears e n ≤ daysOfYears e k := by
  induction k, h using Nat.le_induction with
  | base => exact le_rfl
  | succ k _ ih => exact ih.trans (Nat.le_add_right _ _)

theorem daysOfMonths_mono {y n k : Nat} (h : n ≤ k) : daysOfMonths y n ≤ daysOfMonths y k := by
  induction k, h using Nat.le_induction with
  | base => exact le_rfl
  | succ k _ ih => exact ih.trans (Nat.le_add_right _ _)

/-- The twelve months make the year. -/
theorem daysOfMonths_twelve (y : Nat) : daysOfMonths y 12 = yearLength y := by
  cases hl : leap y <;> simp [daysOfMonths, monthLength, yearLength, hl]

namespace DateTime

variable {e : Nat} {t u : DateTime}

/-- A day stands within its month. -/
theorem Valid.days_lt (h : t.Valid) : daysOfMonths t.year (t.month - 1) + (t.day - 1) < daysOfMonths t.year t.month := by
  obtain ⟨hm, _⟩ := h.month
  obtain ⟨m, hm⟩ : ∃ m, t.month = m + 1 := ⟨t.month - 1, by omega⟩
  have hd := h.day
  rw [hm] at hd ⊢
  rw [Nat.add_sub_cancel, daysOfMonths]
  omega

/-- A date stands within its year. -/
theorem Valid.days_lt_year (h : t.Valid) : daysOfMonths t.year (t.month - 1) + (t.day - 1) < yearLength t.year :=
  calc daysOfMonths t.year (t.month - 1) + (t.day - 1) < daysOfMonths t.year t.month := h.days_lt
    _ ≤ daysOfMonths t.year 12 := daysOfMonths_mono h.month.2
    _ = yearLength t.year := daysOfMonths_twelve t.year

/-- The days before a later date are more. -/
theorem days_lt_of_lt (ht : t.Valid) (he : e ≤ t.year)
    (h : t.year < u.year ∨ t.year = u.year ∧ (t.month < u.month ∨ t.month = u.month ∧ t.day < u.day)) : t.days e < u.days e := by
  unfold days
  rcases h with hy | ⟨hy, hm | ⟨hm, hd⟩⟩
  · have hmono : daysOfYears e (t.year - e + 1) ≤ daysOfYears e (u.year - e) := daysOfYears_mono (by omega)
    rw [daysOfYears, show e + (t.year - e) = t.year by omega] at hmono
    have := ht.days_lt_year
    omega
  · have hmono : daysOfMonths t.year t.month ≤ daysOfMonths u.year (u.month - 1) := hy ▸ daysOfMonths_mono (by omega)
    have := ht.days_lt
    rw [← hy] at hmono ⊢
    omega
  · have := ht.day.1
    rw [← hy, ← hm]
    omega

/-- A moment that comes later in the order of the fields has more seconds before it. -/
theorem seconds_lt_of_lt (ht : t.Valid) (he : e ≤ t.year) (h : t.key < u.key) : t.seconds e < u.seconds e := by
  have hdays := days_lt_of_lt (u := u) ht he
  have h1 := ht.hour
  have h2 := ht.minute
  have h3 := ht.second
  unfold seconds
  rw [key_lt_iff] at h
  by_cases hdate : t.year < u.year ∨ t.year = u.year ∧ (t.month < u.month ∨ t.month = u.month ∧ t.day < u.day)
  · have := hdays hdate
    omega
  · have hsame : t.days e = u.days e := by
      unfold days
      rw [show t.year = u.year by omega, show t.month = u.month by omega, show t.day = u.day by omega]
    omega

/-- The seconds since a year put the moments from it on in the order of their fields. -/
theorem key_lt_of_seconds_lt (hu : u.Valid) (he : e ≤ u.year) (h : t.seconds e < u.seconds e) : t.key < u.key := by
  rcases lt_trichotomy t.key u.key with hlt | heq | hgt
  · exact hlt
  · rw [key_injective heq] at h
    exact absurd h (lt_irrefl _)
  · exact absurd (seconds_lt_of_lt hu he hgt) (not_lt.mpr h.le)

end DateTime

/-! ## Years that begin in March -/

/-- The days from 1 March of the year 0 to 1 March of the year `y`. -/
def marchDays (y : Nat) : Nat := 365 * y + y / 4 - y / 100 + y / 400

theorem marchDays_succ (y : Nat) : marchDays (y + 1) = marchDays y + yearLength (y + 1) := by
  have hdiv : ∀ k, (y + 1) / k = y / k + if (y + 1) % k = 0 then 1 else 0 := by
    intro k
    simp only [Nat.succ_div, Nat.dvd_iff_mod_eq_zero]
  have h100 : (y + 1) % 400 = 0 → (y + 1) % 100 = 0 := by omega
  have h4 : (y + 1) % 100 = 0 → (y + 1) % 4 = 0 := by omega
  have hle := Nat.div_le_self y 100
  unfold marchDays yearLength leap
  rw [hdiv 4, hdiv 100, hdiv 400]
  generalize y / 4 = quarters, y / 400 = cycles
  generalize y / 100 = centuries at hle ⊢
  by_cases hcycle : (y + 1) % 400 = 0
  · simp [h4 (h100 hcycle), h100 hcycle, hcycle]
    omega
  · by_cases hcentury : (y + 1) % 100 = 0
    · simp [h4 hcentury, hcentury, hcycle]
      omega
    · by_cases hquarter : (y + 1) % 4 = 0
      · simp [hquarter, hcentury, hcycle]
        omega
      · simp [hquarter, hcentury, hcycle]
        omega

/-- Whole years are as long between days of March as between the days of January that follow. -/
theorem daysOfYears_add_marchDays (e n : Nat) : daysOfYears (e + 1) n + marchDays e = marchDays (e + n) := by
  induction n with
  | zero => simp [daysOfYears]
  | succ n ih =>
    rw [daysOfYears, ← Nat.add_assoc e n 1, marchDays_succ, show e + 1 + n = e + n + 1 by omega]
    omega

end Calendar

end Risuko
