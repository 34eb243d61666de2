import Mathlib.Data.List.Basic

/-!
# Lower case

The lower case of a string, character by character, but for a capital sigma, whose lower case depends on whether it ends a word. What is
known of characters beyond ASCII comes with tables. A string falls apart at characters that no word goes over (`toLowercase_append_cons`).
-/

namespace Risuko

/-- What is known of the characters beyond ASCII. -/
structure CaseTables where
  lower : Char → List Char
  cased : Char → Bool
  ignorable : Char → Bool

namespace CaseTables

variable (t : CaseTables)

/-- The lower case of a character. -/
def lowerOf (c : Char) : List Char := if c.toNat < 128 then [c.toLower] else t.lower c

/-- Whether a character is a letter with a case. -/
def isCased (c : Char) : Bool := if c.toNat < 128 then c.isAlpha else t.cased c

/-- Whether a character is looked through when a word is looked for. -/
def isIgnorable (c : Char) : Bool := if c.toNat < 128 then c ∈ ['\'', '.', ':', '^', '\x60'] else t.ignorable c

/-- Whether a word goes on. -/
def ignorableThenCased (s : List Char) : Bool := ((s.dropWhile t.isIgnorable).head?).any t.isCased

/-- The lower case of a capital sigma, between what is before it, nearest first, and what is behind it. -/
def lowerSigma (before behind : List Char) : Char :=
  if t.ignorableThenCased before && !t.ignorableThenCased behind then 'ς' else 'σ'

/-- The lower case of the rest of a string. -/
def lowerFrom : List Char → List Char → List Char
  | _, [] => []
  | before, c :: rest => (if c = 'Σ' then [t.lowerSigma before rest] else t.lowerOf c) ++ lowerFrom (c :: before) rest

/-- The lower case of a string. -/
def toLowercase (s : List Char) : List Char := t.lowerFrom [] s

/-- A character that is its own lower case and that no word goes over. -/
structure Neutral (c : Char) : Prop where
  lower : t.lowerOf c = [c]
  not_cased : t.isCased c = false
  not_ignorable : t.isIgnorable c = false
  not_sigma : c ≠ 'Σ'

variable {t}

theorem ignorableThenCased_append_cons {c : Char} (h : t.Neutral c) (s behind : List Char) :
    t.ignorableThenCased (s ++ c :: behind) = t.ignorableThenCased s := by
  unfold ignorableThenCased
  rw [List.dropWhile_append]
  split
  · rename_i hempty
    rw [List.isEmpty_iff] at hempty
    rw [List.dropWhile_cons_of_neg (by rw [h.not_ignorable]; exact Bool.false_ne_true), hempty]
    simp [h.not_cased]
  · rename_i hne
    cases hs : s.dropWhile t.isIgnorable with
    | nil => exact absurd (by rw [hs]; rfl) hne
    | cons x rest => rfl

/-- What is behind a neutral character does not see what is before it. -/
theorem lowerFrom_behind {c : Char} (h : t.Neutral c) (s before seen : List Char) :
    t.lowerFrom (seen ++ c :: before) s = t.lowerFrom seen s := by
  induction s generalizing seen with
  | nil => rfl
  | cons x rest ih =>
    have hsigma : t.lowerSigma (seen ++ c :: before) rest = t.lowerSigma seen rest := by
      rw [lowerSigma, lowerSigma, ignorableThenCased_append_cons h]
    rw [lowerFrom, lowerFrom, hsigma, ← List.cons_append, ih]

theorem lowerFrom_append_cons {c : Char} (h : t.Neutral c) (s behind before : List Char) :
    t.lowerFrom before (s ++ c :: behind) = t.lowerFrom before s ++ c :: t.lowerFrom [] behind := by
  induction s generalizing before with
  | nil =>
    have hbehind := lowerFrom_behind h behind before []
    have hcons : t.lowerFrom before (c :: behind) = c :: t.lowerFrom (c :: before) behind := by
      rw [lowerFrom, if_neg h.not_sigma, h.lower]
      rfl
    exact hcons.trans (congrArg (c :: ·) hbehind)
  | cons x rest ih =>
    have hsigma : t.lowerSigma before (rest ++ c :: behind) = t.lowerSigma before rest := by
      rw [lowerSigma, lowerSigma, ignorableThenCased_append_cons h]
    rw [List.cons_append, lowerFrom, lowerFrom, hsigma, ih, List.append_assoc]

/-- A string falls apart at a neutral character. -/
theorem toLowercase_append_cons {c : Char} (h : t.Neutral c) (s behind : List Char) :
    t.toLowercase (s ++ c :: behind) = t.toLowercase s ++ c :: t.toLowercase behind :=
  lowerFrom_append_cons h s behind []

/-- A text of neutral characters is kept, whatever stands around it. -/
theorem toLowercase_append_neutral {middle : List Char} (hne : middle ≠ []) (h : ∀ c ∈ middle, t.Neutral c) (s behind : List Char) :
    t.toLowercase (s ++ (middle ++ behind)) = t.toLowercase s ++ (middle ++ t.toLowercase behind) := by
  induction middle generalizing s with
  | nil => exact absurd rfl hne
  | cons c middle ih =>
    rw [List.cons_append, toLowercase_append_cons (h c List.mem_cons_self), List.cons_append]
    cases middle with
    | nil => rfl
    | cons d middle =>
      have hrest := ih (List.cons_ne_nil _ _) (fun x hx => h x (List.mem_cons_of_mem c hx)) []
      exact congrArg (fun tail => t.toLowercase s ++ c :: tail) hrest

/-! ## Comparison without regard to case -/

variable (t)

/-- The lower case of a character, with one form of the sigma. -/
def foldChar (c : Char) : List Char := if c = 'Σ' then ['σ'] else (t.lowerOf c).map fun x => if x = 'ς' then 'σ' else x

/-- A string without regard to case. -/
def foldCase (s : List Char) : List Char := s.flatMap t.foldChar

variable {t}

theorem foldCase_append (s s' : List Char) : t.foldCase (s ++ s') = t.foldCase s ++ t.foldCase s' := List.flatMap_append

/-- What is in lower case without characters beyond ASCII is kept. -/
theorem foldCase_eq_self {s : List Char} (h : (s.all fun c => c.toNat < 128 && c.toLower == c) = true) : t.foldCase s = s := by
  induction s with
  | nil => rfl
  | cons c rest ih =>
    obtain ⟨hc, hrest⟩ := Bool.and_eq_true_iff.mp (List.all_cons.symm.trans h)
    simp only [Bool.and_eq_true, decide_eq_true_eq, beq_iff_eq] at hc
    obtain ⟨hascii, hlower⟩ := hc
    have hsigma : c ≠ 'Σ' := by
      rintro rfl
      revert hascii
      decide
    have hfinal : c ≠ 'ς' := by
      rintro rfl
      revert hascii
      decide
    rw [foldCase, List.flatMap_cons, foldChar, if_neg hsigma, lowerOf, if_pos hascii, hlower, List.map_singleton, if_neg hfinal]
    exact congrArg (c :: ·) (ih hrest)

end CaseTables

end Risuko
