import Risuko.Lemmas.Storage

/-!
# What the iterator yields

For a range that starts before the end, no difference in `next` falls below zero, and the iterator yields what `spansFrom` lists
(`collect_eq_spansFrom`): spans with data, in the order of the files.
-/

namespace Risuko

/-- Spans that cover a range of the files one after the other, each with data and inside its file. -/
structure SpanCover (set : FileSet) (offset stop : Nat) (spans : List Span) : Prop where
  ordered : spans.Pairwise fun a b => a.fileIndex < b.fileIndex
  data : ∀ span ∈ spans, 0 < span.len
  tiles : Tiles set offset spans stop

/-- Only the empty list covers nothing. -/
theorem SpanCover.eq_nil {set : FileSet} {offset : Nat} {spans : List Span} (h : SpanCover set offset offset spans) : spans = [] := by
  cases spans with
  | nil => rfl
  | cons span rest =>
    have hlen := h.data span List.mem_cons_self
    have hle := tiles_le h.tiles.2
    omega

theorem wrappingSub_of_le {a b : Nat} (h : b ≤ a) (ha : a < 2 ^ 64) : wrappingSub a b = a - b := by
  rw [wrappingSub, Nat.add_sub_assoc h, Nat.add_mod_left, Nat.mod_eq_of_lt (by omega)]

theorem wrappingAdd_of_lt {a b : Nat} (h : a + b < 2 ^ 64) : wrappingAdd a b = a + b := Nat.mod_eq_of_lt h

/-! ## The files that are passed over -/

theorem skipEmpty_of_empty {set : FileSet} {idx : Nat} {f : FileInfo} (hf : set.files[idx]? = some f) (hl : f.length = 0) :
    set.skipEmpty idx = set.skipEmpty (idx + 1) := by
  have hdrop : set.files.drop idx = f :: set.files.drop (idx + 1) := by
    obtain ⟨hlt, rfl⟩ := List.getElem?_eq_some_iff.mp hf
    exact List.drop_eq_getElem_cons hlt
  rw [FileSet.skipEmpty, FileSet.skipEmpty, hdrop, List.takeWhile_cons_of_pos (by simpa using hl), List.length_cons]
  omega

theorem skipEmpty_of_data {set : FileSet} {idx : Nat} {f : FileInfo} (hf : set.files[idx]? = some f) (hl : f.length ≠ 0) :
    set.skipEmpty idx = idx := by
  have hdrop : set.files.drop idx = f :: set.files.drop (idx + 1) := by
    obtain ⟨hlt, rfl⟩ := List.getElem?_eq_some_iff.mp hf
    exact List.drop_eq_getElem_cons hlt
  rw [FileSet.skipEmpty, hdrop, List.takeWhile_cons_of_neg (by simpa using hl)]
  rfl

theorem skipEmpty_of_end {set : FileSet} {idx : Nat} (h : set.files.length ≤ idx) : set.skipEmpty idx = idx := by
  rw [FileSet.skipEmpty, List.drop_eq_nil_of_le h]
  rfl

/-- A call looks at the file behind those without data only. -/
theorem next_of_empty {set : FileSet} {idx : Nat} {f : FileInfo} (hf : set.files[idx]? = some f) (hl : f.length = 0)
    (cursor remaining : Nat) : set.next ⟨cursor, remaining, idx⟩ = set.next ⟨cursor, remaining, idx + 1⟩ := by
  unfold FileSet.next
  dsimp only
  rw [skipEmpty_of_empty hf hl]

theorem next_of_data {set : FileSet} {idx cursor remaining : Nat} {f : FileInfo} (hf : set.files[idx]? = some f) (hl : f.length ≠ 0)
    (hr : remaining ≠ 0) :
    set.next ⟨cursor, remaining, idx⟩ =
      let take := min (wrappingSub f.length (wrappingSub cursor f.offset)) remaining
      some (⟨idx, wrappingSub cursor f.offset, take⟩,
        { cursor := wrappingAdd cursor take
          remaining := remaining - take
          idx := if f.offset + f.length ≤ wrappingAdd cursor take then idx + 1 else idx }) := by
  unfold FileSet.next
  dsimp only
  rw [if_neg hr, skipEmpty_of_data hf hl, hf]

theorem next_of_end {set : FileSet} {idx : Nat} (h : set.files.length ≤ idx) (cursor remaining : Nat) :
    set.next ⟨cursor, remaining, idx⟩ = none := by
  unfold FileSet.next
  dsimp only
  rw [skipEmpty_of_end h, List.getElem?_eq_none h]
  split <;> rfl

theorem next_zero (set : FileSet) (cursor idx : Nat) : set.next ⟨cursor, 0, idx⟩ = none := if_pos rfl

theorem collect_of_none {set : FileSet} {fuel : Nat} {it : SpansIter} (h : set.next it = none) : set.collect fuel it = [] := by
  cases fuel with
  | zero => rfl
  | succ fuel => rw [FileSet.collect, h]

theorem collect_of_some {set : FileSet} {fuel : Nat} {it it' : SpansIter} {span : Span} (h : set.next it = some (span, it')) :
    set.collect (fuel + 1) it = span :: set.collect fuel it' := by
  rw [FileSet.collect, h]

/-! ## The spans -/

/-- From a cursor inside the files on, the iterator yields what `spansFrom` lists. -/
theorem collect_eq_spansFrom {set : FileSet} (htotal : set.totalLength < 2 ^ 64) {files : List FileInfo} {idx start cursor remaining fuel : Nat}
    (hfiles : set.files.drop idx = files) (hcont : Contiguous start files set.totalLength) (hle : start ≤ cursor)
    (hin : ∀ f, files.head? = some f → cursor < f.offset + f.length ∨ cursor = start) (hfuel : files.length < fuel) :
    set.collect fuel ⟨cursor, remaining, idx⟩ = FileSet.spansFrom idx files cursor remaining := by
  induction files generalizing idx start cursor remaining fuel with
  | nil => rw [collect_of_none (next_of_end (List.drop_eq_nil_iff.mp hfiles) _ _), FileSet.spansFrom]
  | cons f rest ih =>
    obtain ⟨hoff, hrest⟩ := hcont
    have hdrop : set.files.drop (idx + 1) = rest := by
      rw [← List.tail_drop, hfiles, List.tail_cons]
    have hget : set.files[idx]? = some f := by
      rw [← List.head?_drop, hfiles, List.head?_cons]
    have hhead := hin f rfl
    have hend := (set.contiguous.bounds hget).2
    obtain ⟨fuel, rfl⟩ := Nat.exists_eq_add_of_le' (Nat.lt_of_le_of_lt (Nat.zero_le _) hfuel)
    rw [List.length_cons] at hfuel
    rw [FileSet.spansFrom]
    by_cases hr : remaining = 0
    · rw [if_pos hr, hr, collect_of_none (next_zero set cursor idx)]
    · rw [if_neg hr]
      by_cases hl : f.length = 0
      · have hnext : set.collect (fuel + 1) ⟨cursor, remaining, idx⟩ = set.collect (fuel + 1) ⟨cursor, remaining, idx + 1⟩ := by
          rw [FileSet.collect, FileSet.collect, next_of_empty hget hl]
        rw [if_pos hl, hnext]
        exact ih hdrop hrest (by omega) (fun g hg => Or.inr (by omega)) (by omega)
      · have hoffset : wrappingSub cursor f.offset = cursor - f.offset := wrappingSub_of_le (by omega) (by omega)
        have havail : wrappingSub f.length (cursor - f.offset) = f.length - (cursor - f.offset) :=
          wrappingSub_of_le (by omega) (by omega)
        have hcursor : wrappingAdd cursor (min (f.length - (cursor - f.offset)) remaining) =
            cursor + min (f.length - (cursor - f.offset)) remaining := wrappingAdd_of_lt (by omega)
        rw [if_neg hl, collect_of_some (next_of_data hget hl hr), hoffset, havail, hcursor]
        dsimp only
        split
        · rw [ih hdrop hrest (by omega) (fun g hg => Or.inr (by omega)) (by omega)]
        · rw [show remaining - min (f.length - (cursor - f.offset)) remaining = 0 by omega, collect_of_none (next_zero _ _ _)]

/-- Spans come in the order of the files, with data. -/
theorem spansFrom_ordered {files : List FileInfo} {idx start stop cursor remaining : Nat} (hcont : Contiguous start files stop)
    (hle : start ≤ cursor) (hin : ∀ f, files.head? = some f → cursor < f.offset + f.length ∨ cursor = start) :
    (∀ span ∈ FileSet.spansFrom idx files cursor remaining, idx ≤ span.fileIndex ∧ 0 < span.len)
      ∧ (FileSet.spansFrom idx files cursor remaining).Pairwise fun a b => a.fileIndex < b.fileIndex := by
  induction files generalizing idx start cursor remaining with
  | nil => exact ⟨fun span h => absurd h List.not_mem_nil, List.Pairwise.nil⟩
  | cons f rest ih =>
    obtain ⟨hoff, hrest⟩ := hcont
    have hhead := hin f rfl
    rw [FileSet.spansFrom]
    split
    · exact ⟨fun span h => absurd h List.not_mem_nil, List.Pairwise.nil⟩
    split
    · obtain ⟨hall, hord⟩ := @ih (idx + 1) (start + f.length) cursor remaining hrest (by omega) fun g hg => Or.inr (by omega)
      exact ⟨fun span hs => ⟨Nat.le_of_succ_le (hall span hs).1, (hall span hs).2⟩, hord⟩
    · have htail : (∀ span ∈ if f.offset + f.length ≤ cursor + min (f.length - (cursor - f.offset)) remaining then
            FileSet.spansFrom (idx + 1) rest (cursor + min (f.length - (cursor - f.offset)) remaining)
              (remaining - min (f.length - (cursor - f.offset)) remaining) else [], idx + 1 ≤ span.fileIndex ∧ 0 < span.len)
          ∧ (if f.offset + f.length ≤ cursor + min (f.length - (cursor - f.offset)) remaining then
            FileSet.spansFrom (idx + 1) rest (cursor + min (f.length - (cursor - f.offset)) remaining)
              (remaining - min (f.length - (cursor - f.offset)) remaining) else []).Pairwise
                fun a b => a.fileIndex < b.fileIndex := by
        split
        · exact ih hrest (by omega) (fun g hg => Or.inr (by omega))
        · exact ⟨fun span h => absurd h List.not_mem_nil, List.Pairwise.nil⟩
      obtain ⟨hall, hord⟩ := htail
      refine ⟨List.forall_mem_cons.mpr ⟨⟨le_rfl, by dsimp only; omega⟩, fun span hs => ?_⟩, List.pairwise_cons.mpr ⟨fun span hs => ?_, hord⟩⟩
      · exact ⟨Nat.le_of_succ_le (hall span hs).1, (hall span hs).2⟩
      · exact (hall span hs).1

/-- A range that starts before the end is cut into spans of what is inside. -/
theorem spanCover_of_lt {set : FileSet} (htotal : set.totalLength < 2 ^ 64) {offset len : Nat} (h : offset < set.totalLength) :
    SpanCover set offset (min (offset + len) set.totalLength) (set.collectSpans offset len)
      ∧ set.collectSpans offset len = set.spansFor offset len := by
  obtain ⟨f, hget, hin⟩ := fileIndexFor_spec set h
  have hcont := set.contiguous.drop hget
  have hhead : ∀ g, (set.files.drop (set.fileIndexFor offset)).head? = some g → offset < g.offset + g.length ∨ offset = f.offset := by
    intro g hg
    rw [List.head?_drop, hget] at hg
    cases hg
    exact .inl hin.2
  have heq : set.collectSpans offset len = set.spansFor offset len := by
    refine collect_eq_spansFrom htotal rfl hcont hin.1 hhead ?_
    rw [List.length_drop]
    omega
  obtain ⟨hall, hord⟩ := @spansFrom_ordered _ (set.fileIndexFor offset) _ _ _ len hcont hin.1 hhead
  rw [heq]
  exact ⟨⟨hord, fun span hs => (hall span hs).2, spansFor_tiles_min set h⟩, rfl⟩

/-- At the end of the files or behind it, the search ends at the last file. -/
theorem fileIndexFor_of_ge {set : FileSet} {offset : Nat} (h : set.totalLength ≤ offset) :
    set.fileIndexFor offset = set.files.length - 1 := by
  have hall : ∀ f ∈ set.files, f.offset ≤ offset ∧ f.offset + f.length ≤ offset := by
    intro f hf
    obtain ⟨i, hi⟩ := List.mem_iff_getElem?.mp hf
    have := set.contiguous.bounds hi
    omega
  unfold FileSet.fileIndexFor
  have hnone : set.files.findIdx? (fun f => decide (f.offset ≤ offset) && decide (offset < f.offset + f.length)) = none := by
    rw [List.findIdx?_eq_none_iff]
    intro f hf
    have := hall f hf
    simp only [Bool.and_eq_false_iff, decide_eq_false_iff_not]
    omega
  have hcount : set.files.countP (fun f => decide (f.offset ≤ offset) && decide (f.offset + f.length ≤ offset)) = set.files.length := by
    rw [List.countP_eq_length]
    intro f hf
    simpa using hall f hf
  rw [hnone, hcount]
  dsimp only
  omega

end Risuko
