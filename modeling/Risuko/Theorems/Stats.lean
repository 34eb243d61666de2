import Risuko.Engine.Stats

/-!
# What is stored of the download statistics

When all calls have returned, a start would load the store as it is, in every run in which no copy of it is written over a later one
(`document_eq_store`). Nothing keeps to that order (`document_is_stale`).
-/

namespace Risuko

namespace Stats

namespace Manager

variable {s s' : Manager}

/-- The store was changed last after copy number `changed`; copies with a greater number are copies of what it is now. -/
structure Current (s : Manager) (changed : Nat) : Prop where
  saving : ∀ data number, .write data number ∈ s.saving → number ≤ s.taken ∧ (changed < number → data = s.store)
  written : s.written ≤ s.taken ∧ (changed < s.written → s.document = s.store)
  /-- The last change has been written, or the call that made it is going to write it. -/
  pending : s.errors = 0 → changed < s.written ∨ .snapshot ∈ s.saving ∨ ∃ data number, .write data number ∈ s.saving ∧ changed < number
  before : changed ≤ s.taken

/-- At the start no save is under way. -/
theorem current_start (stored : Option DownloadStatsStore) : (start stored).Current 0 where
  saving := nofun
  written := ⟨le_rfl, fun _ => rfl⟩
  pending _ := .inl Nat.one_pos
  before := Nat.zero_le _

/-- A call that is somewhere else stays where it is. -/
theorem mem_eraseIdx_of_ne {saving : List Saving} {i : Nat} {x z : Saving} (hi : saving[i]? = some x) (hne : z ≠ x) (hz : z ∈ saving) :
    z ∈ saving.eraseIdx i := by
  obtain ⟨j, hj⟩ := List.mem_iff_getElem?.mp hz
  refine List.mem_eraseIdx_iff_getElem?.mpr ⟨j, ?_, hj⟩
  rintro rfl
  exact hne (Option.some.inj (hj.symm.trans hi))

/-- Each step that keeps to the order leaves the last change written or about to be. -/
theorem Current.step {changed : Nat} (h : s.Current changed) {a : Action} (horder : s.inOrder a = true) (hstep : s.step a = some s') :
    ∃ changed', s'.Current changed' := by
  cases a with
  | call c =>
    simp only [Manager.step] at hstep
    split at hstep
    · cases hstep
      refine ⟨s.taken, fun data number hmem => ?_, ⟨h.written.1, fun hn => absurd h.written.1 (not_le.mpr hn)⟩,
        fun _ => .inr (.inl (List.mem_append_right _ (List.mem_singleton_self _))), le_rfl⟩
      rcases List.mem_append.mp hmem with hmem | hmem
      · have hle := (h.saving data number hmem).1
        exact ⟨hle, fun hn => absurd hle (not_le.mpr hn)⟩
      · cases List.mem_singleton.mp hmem
    · cases hstep
      exact ⟨changed, h⟩
  | snapshot i =>
    simp only [Manager.step] at hstep
    split at hstep
    · rename_i hi
      cases hstep
      obtain ⟨hlt, -⟩ := List.getElem?_eq_some_iff.mp hi
      have hbefore := h.before
      refine ⟨changed, fun data number hmem => ?_, ⟨h.written.1.trans (Nat.le_succ _), h.written.2⟩, fun _ => ?_, hbefore.trans (Nat.le_succ _)⟩
      · rcases List.mem_or_eq_of_mem_set hmem with hmem | heq
        · exact ⟨(h.saving data number hmem).1.trans (Nat.le_succ _), (h.saving data number hmem).2⟩
        · cases heq
          exact ⟨le_rfl, fun _ => rfl⟩
      · exact .inr (.inr ⟨s.store, s.taken + 1, List.mem_set hlt .., by omega⟩)
    · cases hstep
  | write i ok =>
    simp only [Manager.step] at hstep
    split at hstep
    · rename_i data number hi
      have hmem := List.mem_of_getElem? hi
      cases ok with
      | false =>
        cases hstep
        exact ⟨changed, fun d n hd => h.saving d n (List.mem_of_mem_eraseIdx hd), h.written, nofun, h.before⟩
      | true =>
        cases hstep
        have hle : s.written ≤ number := by simpa [inOrder, hi] using horder
        refine ⟨changed, fun d n hd => h.saving d n (List.mem_of_mem_eraseIdx hd), h.saving data number hmem, fun herrors => ?_, h.before⟩
        rcases h.pending herrors with hwritten | hsnapshot | ⟨d, n, hd, hn⟩
        · exact .inl (hwritten.trans_le hle)
        · exact .inr (.inl (mem_eraseIdx_of_ne hi nofun hsnapshot))
        · by_cases heq : Saving.write d n = .write data number
          · cases heq
            exact .inl hn
          · exact .inr (.inr ⟨d, n, mem_eraseIdx_of_ne hi heq hd, hn⟩)
    · cases hstep

/-- In a run whose steps write no copy over a later one, a start would load the store as it is once all calls have returned without an error. -/
theorem document_eq_store (h : s.ReachableInOrder) (hdone : s.saving = []) (hok : s.errors = 0) : s.document = s.store := by
  obtain ⟨changed, hcurrent⟩ : ∃ changed, s.Current changed := by
    refine @Reach.invariant _ _ _ (fun s => ∃ changed, s.Current changed) (fun s hs => ?_) (fun s s' ⟨changed, hs⟩ ⟨a, horder, hstep⟩ => ?_) _ h
    · obtain ⟨stored, rfl⟩ := hs
      exact ⟨0, current_start stored⟩
    · exact hs.step horder hstep
  refine hcurrent.written.2 ?_
  rcases hcurrent.pending hok with hwritten | hmem | ⟨data, number, hmem, -⟩
  · exact hwritten
  · rw [hdone] at hmem
    exact absurd hmem List.not_mem_nil
  · rw [hdone] at hmem
    exact absurd hmem List.not_mem_nil

/-- A minute in which one task was seen. -/
def sampleMinute : DownloadStatsMinuteInput := ⟨1700000000, "2023-11", [⟨"a", "http", none, 100, 10, 0, 1⟩]⟩

/-- The statistics are cleared while the copy with the minute is on its way to the storage. -/
def clearedMeanwhile : List Action :=
  [.call (.recordMinute sampleMinute), .snapshot 0, .call .clear, .snapshot 1, .write 0 true, .write 0 true]

/-- The store is cleared while a record is being saved, and the document is that of the store. -/
theorem document_eq_store_cleared :
    ∃ s, runActions (fun s a => if s.inOrder a = true then s.step a else none) (start none) clearedMeanwhile = some s ∧ s.written = 3 ∧
      s.document = s.store := by
  obtain ⟨s, hrun, hwritten, hdone, hok⟩ : ∃ s, runActions (fun s a => if s.inOrder a = true then s.step a else none) (start none)
      clearedMeanwhile = some s ∧ s.written = 3 ∧ s.saving = [] ∧ s.errors = 0 := ⟨_, rfl, rfl, rfl, rfl⟩
  exact ⟨s, hrun, hwritten, document_eq_store (Reach.runGuarded hrun (.init ⟨none, rfl⟩)) hdone hok⟩

/-- The copy with the minute is written after the one that was taken when the statistics had been cleared. -/
theorem document_is_stale : ¬ ∀ s : Manager, s.Reachable → s.saving = [] → s.errors = 0 → s.document = s.store := by
  intro h
  obtain ⟨s, hrun, hdone, hok, hdocument, hstore⟩ : ∃ s, runActions Manager.step (start none)
      [.call (.recordMinute sampleMinute), .snapshot 0, .call .clear, .snapshot 1, .write 1 true, .write 0 true] = some s ∧ s.saving = [] ∧
      s.errors = 0 ∧ s.document.baselines.isEmpty = false ∧ s.store.baselines.isEmpty = true := ⟨_, rfl, rfl, rfl, rfl, rfl⟩
  have heq := h s (Reach.runActions hrun (.init ⟨none, rfl⟩)) hdone hok
  rw [heq, hstore] at hdocument
  cases hdocument

end Manager

end Stats

end Risuko
