import Risuko.Lib.Lists

/-!
# A file system of regular files

Paths link to files, and an open handle is a file: it goes on working when its path is removed. A write past the end fills the
gap with zeros; a read past the end fails. No two paths link to one file, and a file that is created is new.
-/

namespace Risuko

/-- Bytes written into a file at an offset. -/
def writeBytes (content : List UInt8) (offset : Nat) (data : List UInt8) : List UInt8 :=
  if data.isEmpty then content
  else overwrite (content ++ List.replicate (offset + data.length - content.length) 0) offset data

theorem getElem?_writeBytes_self {content data : List UInt8} {offset k : Nat} (hk : k < data.length) :
    (writeBytes content offset data)[offset + k]? = data[k]? := by
  unfold writeBytes
  rw [if_neg (by simp; rintro rfl; simp at hk)]
  rw [getElem?_overwrite (by rw [List.length_append, List.length_replicate]; omega), if_pos (by omega), Nat.add_sub_cancel_left]

/-- A byte outside the range written stays. -/
theorem getElem?_writeBytes_of_not_mem {content data : List UInt8} {offset k : Nat} {b : UInt8} (hb : content[k]? = some b)
    (hk : ¬ (offset ≤ k ∧ k < offset + data.length)) : (writeBytes content offset data)[k]? = some b := by
  unfold writeBytes
  split
  · exact hb
  · rw [getElem?_overwrite (by rw [List.length_append, List.length_replicate]; omega), if_neg hk,
      List.getElem?_append_left (List.getElem?_eq_some_iff.mp hb).1]
    exact hb

/-! ## Writing what belongs there -/

/-- Data that a target holds from an offset on. -/
def Agrees (target : List UInt8) (offset : Nat) (data : List UInt8) : Prop :=
  ∀ k x, data[k]? = some x → target[offset + k]? = some x

variable {target content data : List UInt8} {offset : Nat}

structure Disk (Path : Type*) where
  links : Path → Option Nat
  contents : Nat → List UInt8
  nextFile : Nat
  used : ∀ p i, links p = some i → i < nextFile
  distinct : ∀ p q i, links p = some i → links q = some i → p = q

namespace Disk

variable {Path : Type*}

/-- An empty disk. -/
def empty : Disk Path where
  links := fun _ => none
  contents := fun _ => []
  nextFile := 0
  used := fun _ _ h => by cases h
  distinct := fun _ _ _ h => by cases h

/-- A new empty file at a path. -/
def create [DecidableEq Path] (d : Disk Path) (p : Path) : Disk Path where
  links := Function.update d.links p (some d.nextFile)
  contents := Function.update d.contents d.nextFile []
  nextFile := d.nextFile + 1
  used := by
    intro q i h
    by_cases hq : q = p
    · subst hq
      rw [Function.update_self] at h
      cases h
      exact Nat.lt_succ_self _
    · rw [Function.update_of_ne hq] at h
      exact Nat.lt_succ_of_lt (d.used q i h)
  distinct := by
    intro q r i hq hr
    rw [Function.update_apply] at hq hr
    split at hq <;> split at hr
    · rename_i h1 h2
      rw [h1, h2]
    · cases hq
      exact absurd (d.used r _ hr) (Nat.lt_irrefl _)
    · cases hr
      exact absurd (d.used q _ hq) (Nat.lt_irrefl _)
    · exact d.distinct q r i hq hr

/-- Open for writing, which creates the file if there is none. -/
def openWrite [DecidableEq Path] (d : Disk Path) (p : Path) : Disk Path × Nat :=
  match d.links p with
  | some i => (d, i)
  | none => (d.create p, d.nextFile)

/-- Write at an offset of an open file. -/
def pwriteAll (d : Disk Path) (file offset : Nat) (data : List UInt8) : Disk Path :=
  { d with contents := Function.update d.contents file (writeBytes (d.contents file) offset data) }

/-- Read at an offset of an open file; no result when the file ends before. -/
def preadExact (d : Disk Path) (file offset len : Nat) : Option (List UInt8) :=
  if len = 0 ∨ offset + len ≤ (d.contents file).length then some (((d.contents file).drop offset).take len) else none

/-- Remove a path. -/
def remove [DecidableEq Path] (d : Disk Path) (p : Path) : Disk Path where
  links := Function.update d.links p none
  contents := d.contents
  nextFile := d.nextFile
  used := by
    intro q i h
    rw [Function.update_apply] at h
    split at h
    · cases h
    · exact d.used q i h
  distinct := by
    intro q r i hq hr
    rw [Function.update_apply] at hq hr
    split at hq <;> split at hr
    · cases hq
    · cases hq
    · cases hr
    · exact d.distinct q r i hq hr

/-- A disk on which only the paths allowed were created: what was there is as it was. -/
structure Grows (allowed : Path → Prop) (d d' : Disk Path) : Prop where
  kept : ∀ p i, d.links p = some i → d'.links p = some i ∧ d'.contents i = d.contents i
  created : ∀ p, d.links p = none → d'.links p ≠ none → allowed p

theorem Grows.refl (allowed : Path → Prop) (d : Disk Path) : d.Grows allowed d :=
  ⟨fun _ _ h => ⟨h, rfl⟩, fun _ h h' => absurd h h'⟩

theorem Grows.trans {allowed : Path → Prop} {a b c : Disk Path} (hab : a.Grows allowed b) (hbc : b.Grows allowed c) :
    a.Grows allowed c := by
  refine ⟨fun p i h => ?_, fun p h h' => ?_⟩
  · obtain ⟨hb, hcb⟩ := hab.kept p i h
    obtain ⟨hc, hcc⟩ := hbc.kept p i hb
    exact ⟨hc, hcc.trans hcb⟩
  · by_cases hb : b.links p = none
    · exact hbc.created p hb h'
    · exact hab.created p h hb

theorem openWrite_spec [DecidableEq Path] (d : Disk Path) (p : Path) :
    d.Grows (fun q => q = p) (d.openWrite p).1 ∧ (d.openWrite p).1.links p = some (d.openWrite p).2 := by
  unfold openWrite
  split
  · rename_i i hi
    exact ⟨Grows.refl _ d, hi⟩
  · rename_i hnone
    refine ⟨⟨fun q i h => ?_, fun q h h' => ?_⟩, Function.update_self ..⟩
    · have hq : q ≠ p := by
        rintro rfl
        rw [hnone] at h
        cases h
      have hi : i ≠ d.nextFile := Nat.ne_of_lt (d.used q i h)
      exact ⟨by simp only [create, Function.update_of_ne hq]; exact h, by simp only [create, Function.update_of_ne hi]⟩
    · by_contra hq
      simp only [create, Function.update_of_ne hq] at h'
      exact h' h

/-- A write puts its data in the file. -/
theorem contents_pwriteAll_self (d : Disk Path) (file offset : Nat) (data : List UInt8) {k : Nat} (hk : k < data.length) :
    ((d.pwriteAll file offset data).contents file)[offset + k]? = data[k]? := by
  simp only [pwriteAll, Function.update_self]
  exact getElem?_writeBytes_self hk

/-- A write leaves other files, and the rest of its own, as they are. -/
theorem contents_pwriteAll_of_ne (d : Disk Path) (file offset : Nat) (data : List UInt8) {i k : Nat} {b : UInt8}
    (hb : (d.contents i)[k]? = some b) (hk : ¬ (i = file ∧ offset ≤ k ∧ k < offset + data.length)) :
    ((d.pwriteAll file offset data).contents i)[k]? = some b := by
  by_cases hi : i = file
  · subst hi
    simp only [pwriteAll, Function.update_self]
    exact getElem?_writeBytes_of_not_mem hb (fun h => hk ⟨rfl, h⟩)
  · simp only [pwriteAll, Function.update_of_ne hi]
    exact hb

/-- What a read returns. -/
theorem preadExact_eq_some {d : Disk Path} {file offset len : Nat} {out : List UInt8} (h : d.preadExact file offset len = some out) :
    out.length = len ∧ ∀ k < len, out[k]? = (d.contents file)[offset + k]? := by
  unfold preadExact at h
  split at h
  · rename_i hle
    cases h
    refine ⟨?_, fun k hk => ?_⟩
    · rw [List.length_take, List.length_drop]
      omega
    · rw [List.getElem?_take_of_lt hk, List.getElem?_drop]
  · cases h

end Disk

end Risuko
