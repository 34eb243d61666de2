import Risuko.Engine.Workers
import Risuko.Lemmas.Sections

/-!
# Workers and the maps they are in

Between any two steps each of the two maps holds the workers of certain stages and nothing else, and no two workers have one gid (`Ok`). The
busy gids are those of the workers, so the limit holds for them as long as the starter has not miscounted: whatever it does not know of has
been started by itself (`LoopOk`).
-/

namespace Risuko

namespace Engine

namespace Manager

variable {l : StartLoop} {gid : Gid} {stage : Stage} {task : DownloadTask}

/-- What a call of `try_start_next_unlocked` knows in its loop. -/
structure LoopOk (maxConcurrent : ℕ) (s : Manager) (l : StartLoop) : Prop where
  slots : l.busy.card + l.slots = maxConcurrent
  started_le : l.started.length ≤ l.slots
  covers : ∀ e w, s.workers e = some w → w.gid ∈ l.busy ∨ w.gid ∈ l.started
  visited : ∀ gid ∈ l.started, ∃ j < l.index, ∃ task, s.list.tasks[j]? = some task ∧ task.gid = gid
  passed : ∀ j < l.index, ∀ task, s.list.tasks[j]? = some task →
    task.status ≠ .waiting ∨ task.hasData = false ∨ task.gid ∈ l.busy ∨ task.gid ∈ l.skipped
  nodup : l.started.Nodup
  apart : ∀ gid ∈ l.started, gid ∉ l.busy

/-- What the starter knows at each of its places. -/
def StarterOk (maxConcurrent : ℕ) (s : Manager) : Prop :=
  match s.starter with
  | none | some .locked => True
  | some (.reading busy) => ∀ e w, s.workers e = some w → w.stage.inActive = true → w.gid ∈ busy
  | some (.counted busy) | some (.found busy) => busy.card < maxConcurrent ∧ ∀ e w, s.workers e = some w → w.gid ∈ busy
  | some (.looping l) => LoopOk maxConcurrent s l
  | some (.publishing l gid _) =>
    LoopOk maxConcurrent s l ∧ l.started.length < l.slots ∧ gid ∉ l.busy ∧ gid ∉ l.started ∧
      ∃ task, s.list.tasks[l.index]? = some task ∧ task.gid = gid ∧ task.status ≠ .waiting

structure Ok (maxConcurrent : ℕ) (s : Manager) : Prop where
  distinct : TaskList.Distinct s.list
  starting : ∀ gid e, s.starting.get? gid = some e ↔ ∃ w, s.workers e = some w ∧ w.gid = gid ∧ w.stage.inStarting = true
  active : ∀ gid e, s.active.get? gid = some e ↔ ∃ w, s.workers e = some w ∧ w.gid = gid ∧ w.stage.inActive = true
  one : ∀ e e' w w', s.workers e = some w → s.workers e' = some w' → w.gid = w'.gid → e = e'
  fresh : ∀ e w, s.workers e = some w → e < s.nextEpoch
  bound : s.busyGids.card ≤ maxConcurrent
  starter : StarterOk maxConcurrent s

variable {maxConcurrent : ℕ} {R : OptionReader} {s s' : Manager} {e : Epoch} {w : Worker}

theorem LoopOk.of_eq (h : LoopOk maxConcurrent s l) (hworkers : s'.workers = s.workers) (hlist : s'.list = s.list) :
    LoopOk maxConcurrent s' l where
  slots := h.slots
  started_le := h.started_le
  covers := by
    rw [hworkers]
    exact h.covers
  visited := by
    rw [hlist]
    exact h.visited
  passed := by
    rw [hlist]
    exact h.passed
  nodup := h.nodup
  apart := h.apart

theorem StarterOk.of_eq (h : StarterOk maxConcurrent s) (hworkers : s'.workers = s.workers) (hlist : s'.list = s.list)
    (hstarter : s'.starter = s.starter) : StarterOk maxConcurrent s' := by
  unfold StarterOk at h ⊢
  rw [hstarter]
  cases hst : s.starter with
  | none => trivial
  | some place =>
    rw [hst] at h
    cases place with
    | locked => trivial
    | reading busy =>
      rw [hworkers]
      exact h
    | counted busy =>
      rw [hworkers]
      exact h
    | found busy =>
      rw [hworkers]
      exact h
    | looping l => exact LoopOk.of_eq h hworkers hlist
    | publishing l gid kind =>
      rw [hlist]
      exact ⟨h.1.of_eq hworkers hlist, h.2⟩

/-! ## The busy gids -/

theorem mem_busyGids : gid ∈ s.busyGids ↔ (∃ e, s.active.get? gid = some e) ∨ ∃ e, s.starting.get? gid = some e := by
  rw [busyGids, List.mem_toFinset, List.mem_append, OrdMap.mem_keys, OrdMap.mem_keys]

theorem Stage.inStarting_or_inActive (stage : Stage) : stage.inStarting = true ∨ stage.inActive = true := by
  cases stage <;> simp [Stage.inStarting, Stage.inActive]

/-- The busy gids are those of the workers. -/
theorem Ok.mem_busyGids (h : Ok maxConcurrent s) : gid ∈ s.busyGids ↔ ∃ e w, s.workers e = some w ∧ w.gid = gid := by
  rw [Manager.mem_busyGids]
  constructor
  · rintro (⟨e, he⟩ | ⟨e, he⟩)
    · obtain ⟨w, hw, hgid, -⟩ := (h.active gid e).mp he
      exact ⟨e, w, hw, hgid⟩
    · obtain ⟨w, hw, hgid, -⟩ := (h.starting gid e).mp he
      exact ⟨e, w, hw, hgid⟩
  · rintro ⟨e, w, hw, hgid⟩
    rcases Stage.inStarting_or_inActive w.stage with hstage | hstage
    · exact Or.inr ⟨e, (h.starting gid e).mpr ⟨w, hw, hgid, hstage⟩⟩
    · exact Or.inl ⟨e, (h.active gid e).mpr ⟨w, hw, hgid, hstage⟩⟩

/-- No more gids are busy than there are in a set with the gids of all workers. -/
theorem card_busyGids_le {gids : Finset Gid}
    (starting : ∀ gid e, s.starting.get? gid = some e ↔ ∃ w, s.workers e = some w ∧ w.gid = gid ∧ w.stage.inStarting = true)
    (active : ∀ gid e, s.active.get? gid = some e ↔ ∃ w, s.workers e = some w ∧ w.gid = gid ∧ w.stage.inActive = true)
    (h : ∀ e w, s.workers e = some w → w.gid ∈ gids) : s.busyGids.card ≤ gids.card := by
  refine Finset.card_le_card fun gid hgid => ?_
  rcases Manager.mem_busyGids.mp hgid with ⟨e, he⟩ | ⟨e, he⟩
  · obtain ⟨w, hw, rfl, -⟩ := (active gid e).mp he
    exact h e w hw
  · obtain ⟨w, hw, rfl, -⟩ := (starting gid e).mp he
    exact h e w hw

theorem ok_start {tasks : List DownloadTask} (h : (tasks.map (·.gid)).Nodup) (epoch : Epoch) :
    Ok maxConcurrent (start tasks epoch) where
  distinct := TaskList.distinct_start h
  starting := by
    intro gid e
    constructor
    · intro he
      cases he
    · rintro ⟨w, hw, -⟩
      cases hw
  active := by
    intro gid e
    constructor
    · intro he
      cases he
    · rintro ⟨w, hw, -⟩
      cases hw
  one := by
    intro e e' w w' hw
    cases hw
  fresh := by
    intro e w hw
    cases hw
  bound := Nat.zero_le _
  starter := trivial

/-! ## Steps of a worker -/

/-- A step of a worker that moves on: what the maps hold of it goes with its stage, and no worker comes into `active_downloads` while it is read. -/
theorem Ok.restage (h : Ok maxConcurrent s) (hw : s.workers e = some w)
    (hworkers : s'.workers = Function.update s.workers e (some { w with stage := stage }))
    (hlist : s'.list = s.list ∨ s.tasksFree = true ∧ TaskList.Distinct s'.list) (hnext : s'.nextEpoch = s.nextEpoch)
    (hstarter : s'.starter = s.starter)
    (hstarting : ∀ gid e', s'.starting.get? gid = some e' ↔
      if e' = e then w.gid = gid ∧ stage.inStarting = true else s.starting.get? gid = some e')
    (hactive : ∀ gid e', s'.active.get? gid = some e' ↔ if e' = e then w.gid = gid ∧ stage.inActive = true else s.active.get? gid = some e')
    (hread : s.activeFree = true ∨ stage.inActive = w.stage.inActive) : Ok maxConcurrent s' := by
  have hget : ∀ e' w', s'.workers e' = some w' → ∃ old, s.workers e' = some old ∧ old.gid = w'.gid ∧
      (w' = old ∨ e' = e ∧ old = w ∧ w' = { w with stage := stage }) := by
    intro e' w' hw'
    rw [hworkers] at hw'
    by_cases he : e' = e
    · subst he
      rw [Function.update_self] at hw'
      cases hw'
      exact ⟨w, hw, rfl, Or.inr ⟨rfl, rfl, rfl⟩⟩
    · rw [Function.update_of_ne he] at hw'
      exact ⟨w', hw', rfl, Or.inl rfl⟩
  have hmap : ∀ (p : Stage → Bool) (gid : Gid) (e' : Epoch),
      (if e' = e then w.gid = gid ∧ p stage = true else ∃ v, s.workers e' = some v ∧ v.gid = gid ∧ p v.stage = true) ↔
        ∃ v, s'.workers e' = some v ∧ v.gid = gid ∧ p v.stage = true := by
    intro p gid e'
    rw [hworkers]
    split
    · rename_i he
      subst he
      rw [Function.update_self]
      constructor
      · rintro ⟨hgid, hp⟩
        exact ⟨_, rfl, hgid, hp⟩
      · rintro ⟨v, hv, hgid, hp⟩
        cases hv
        exact ⟨hgid, hp⟩
    · rename_i he
      rw [Function.update_of_ne he]
  have hstarting' : ∀ gid e', s'.starting.get? gid = some e' ↔ ∃ v, s'.workers e' = some v ∧ v.gid = gid ∧ v.stage.inStarting = true := by
    intro gid e'
    rw [hstarting, ← hmap, ← h.starting]
  have hactive' : ∀ gid e', s'.active.get? gid = some e' ↔ ∃ v, s'.workers e' = some v ∧ v.gid = gid ∧ v.stage.inActive = true := by
    intro gid e'
    rw [hactive, ← hmap, ← h.active]
  have hcovered : ∀ {q : Gid → Prop}, (∀ e w, s.workers e = some w → q w.gid) → ∀ e w, s'.workers e = some w → q w.gid := by
    intro q hq e' w' hw'
    obtain ⟨old, hold, hgid, -⟩ := hget e' w' hw'
    exact hgid ▸ hq e' old hold
  refine ⟨?_, hstarting', hactive', ?_, ?_, ?_, ?_⟩
  · rcases hlist with hlist | ⟨-, hlist⟩
    · rw [hlist]
      exact h.distinct
    · exact hlist
  · intro e₁ e₂ w₁ w₂ h₁ h₂ heq
    obtain ⟨old₁, hold₁, hgid₁, -⟩ := hget e₁ w₁ h₁
    obtain ⟨old₂, hold₂, hgid₂, -⟩ := hget e₂ w₂ h₂
    exact h.one e₁ e₂ old₁ old₂ hold₁ hold₂ (hgid₁.trans (heq.trans hgid₂.symm))
  · intro e' w' hw'
    obtain ⟨old, hold, -⟩ := hget e' w' hw'
    rw [hnext]
    exact h.fresh e' old hold
  · exact (card_busyGids_le hstarting' hactive' (hcovered fun e w hw => h.mem_busyGids.mpr ⟨e, w, hw, rfl⟩)).trans h.bound
  · have hs := h.starter
    unfold StarterOk at hs ⊢
    rw [hstarter]
    have hloop : ∀ l, LoopOk maxConcurrent s l → s'.list = s.list → LoopOk maxConcurrent s' l := by
      intro l hl hsame
      refine ⟨hl.slots, hl.started_le, hcovered (q := fun gid => gid ∈ l.busy ∨ gid ∈ l.started) hl.covers, ?_, ?_, hl.nodup, hl.apart⟩
      · rw [hsame]
        exact hl.visited
      · rw [hsame]
        exact hl.passed
    have hheld : s.tasksFree = false → s'.list = s.list := by
      intro hfree
      rcases hlist with hsame | ⟨hfree', -⟩
      · exact hsame
      · rw [hfree] at hfree'
        cases hfree'
    cases hst : s.starter with
    | none => trivial
    | some place =>
      rw [hst] at hs
      cases place with
      | locked => trivial
      | reading busy =>
        intro e' w' hw' hin
        obtain ⟨old, hold, hgid, hcase⟩ := hget e' w' hw'
        have hsame : stage.inActive = w.stage.inActive := by
          rcases hread with hfree | hsame
          · unfold activeFree at hfree
            rw [hst] at hfree
            cases hfree
          · exact hsame
        rw [← hgid]
        refine hs e' old hold ?_
        rcases hcase with rfl | ⟨-, rfl, rfl⟩
        · exact hin
        · exact hsame.symm.trans hin
      | counted busy | found busy => exact ⟨hs.1, hcovered (q := fun gid => gid ∈ busy) hs.2⟩
      | looping l => exact hloop l hs (hheld (by unfold tasksFree; rw [hst]))
      | publishing l gid kind =>
        have hsame := hheld (by unfold tasksFree; rw [hst])
        exact ⟨hloop l hs.1 hsame, hs.2.1, hs.2.2.1, hs.2.2.2.1, by rw [hsame]; exact hs.2.2.2.2⟩

/-- A map that says the same of the worker as before may stay. -/
theorem Ok.same_starting (h : Ok maxConcurrent s) (hw : s.workers e = some w) (hs : stage.inStarting = w.stage.inStarting)
    (gid : Gid) (e' : Epoch) :
    s.starting.get? gid = some e' ↔ if e' = e then w.gid = gid ∧ stage.inStarting = true else s.starting.get? gid = some e' := by
  split
  · rename_i he
    subst he
    rw [h.starting, hs]
    constructor
    · rintro ⟨v, hv, hgid, hin⟩
      rw [hw] at hv
      cases hv
      exact ⟨hgid, hin⟩
    · rintro ⟨hgid, hin⟩
      exact ⟨w, hw, hgid, hin⟩
  · exact Iff.rfl

theorem Ok.same_active (h : Ok maxConcurrent s) (hw : s.workers e = some w) (hs : stage.inActive = w.stage.inActive)
    (gid : Gid) (e' : Epoch) :
    s.active.get? gid = some e' ↔ if e' = e then w.gid = gid ∧ stage.inActive = true else s.active.get? gid = some e' := by
  split
  · rename_i he
    subst he
    rw [h.active, hs]
    constructor
    · rintro ⟨v, hv, hgid, hin⟩
      rw [hw] at hv
      cases hv
      exact ⟨hgid, hin⟩
    · rintro ⟨hgid, hin⟩
      exact ⟨w, hw, hgid, hin⟩
  · exact Iff.rfl

/-- A worker that stays in the maps it is in. -/
theorem Ok.moveOn (h : Ok maxConcurrent s) (hw : s.workers e = some w) (hs : stage.inStarting = w.stage.inStarting)
    (ha : stage.inActive = w.stage.inActive) (cancelled : Finset Epoch) :
    Ok maxConcurrent ({ s with cancelled := cancelled }.setStage e w stage) :=
  h.restage hw rfl (Or.inl rfl) rfl rfl (h.same_starting hw hs) (h.same_active hw ha) (Or.inr ha)

/-- The entry of a worker under its gid. -/
theorem Ok.get_active (h : Ok maxConcurrent s) (hw : s.workers e = some w) (hin : w.stage.inActive = true) :
    s.active.get? w.gid = some e := (h.active w.gid e).mpr ⟨w, hw, rfl, hin⟩

theorem Ok.get_starting (h : Ok maxConcurrent s) (hw : s.workers e = some w) (hin : w.stage.inStarting = true) :
    s.starting.get? w.gid = some e := (h.starting w.gid e).mpr ⟨w, hw, rfl, hin⟩

/-- The section that ends a worker adds no task. -/
theorem newGid_finishSection (w : Worker) (result : DownloadResult) (done : Bool) : (finishSection w result done).newGid = none := by
  unfold finishSection
  split <;> rfl

/-- What a worker writes leaves the list in order. -/
theorem distinct_finish (h : TaskList.Distinct s.list) (w : Worker) (result : DownloadResult) (done : Bool) :
    TaskList.Distinct { s.list with tasks := ((finishSection w result done).apply R s.list.tasks).getD s.list.tasks } := by
  cases happly : (finishSection w result done).apply R s.list.tasks with
  | none => exact h
  | some tasks =>
    refine h.step (R := R) (a := finishSection w result done) ?_
    unfold TaskList.step
    rw [newGid_finishSection, happly]
    rfl

/-- A worker that leaves takes its entry along. -/
theorem Ok.leave (h : Ok maxConcurrent s) (hw : s.workers e = some w) (hstage : w.stage = .written) :
    Ok maxConcurrent { s with active := s.active.erase w.gid, workers := Function.update s.workers e none } := by
  have hget : ∀ e' w', Function.update s.workers e none e' = some w' → e' ≠ e ∧ s.workers e' = some w' := by
    intro e' w' hw'
    by_cases he : e' = e
    · subst he
      rw [Function.update_self] at hw'
      cases hw'
    · rw [Function.update_of_ne he] at hw'
      exact ⟨he, hw'⟩
  have hother : ∀ e' w', e' ≠ e → s.workers e' = some w' → w'.gid ≠ w.gid :=
    fun e' w' he hw' hgid => he (h.one e' e w' w hw' hw hgid)
  have hstarting : ∀ gid e', s.starting.get? gid = some e' ↔
      ∃ v, Function.update s.workers e none e' = some v ∧ v.gid = gid ∧ v.stage.inStarting = true := by
    intro gid e'
    rw [h.starting]
    constructor
    · rintro ⟨v, hv, hgid, hin⟩
      refine ⟨v, ?_, hgid, hin⟩
      rw [Function.update_of_ne, hv]
      rintro rfl
      rw [hw] at hv
      cases hv
      rw [hstage] at hin
      cases hin
    · rintro ⟨v, hv, hgid, hin⟩
      exact ⟨v, (hget e' v hv).2, hgid, hin⟩
  have hactive : ∀ gid e', (s.active.erase w.gid).get? gid = some e' ↔
      ∃ v, Function.update s.workers e none e' = some v ∧ v.gid = gid ∧ v.stage.inActive = true := by
    intro gid e'
    rw [OrdMap.get?_erase]
    split
    · rename_i hgid
      constructor
      · nofun
      · rintro ⟨v, hv, hvgid, -⟩
        obtain ⟨he, hv⟩ := hget e' v hv
        exact absurd (hvgid.trans hgid) (hother e' v he hv)
    · rename_i hgid
      rw [h.active]
      constructor
      · rintro ⟨v, hv, hvgid, hin⟩
        refine ⟨v, ?_, hvgid, hin⟩
        rw [Function.update_of_ne, hv]
        rintro rfl
        rw [hw] at hv
        cases hv
        exact hgid hvgid.symm
      · rintro ⟨v, hv, hvgid, hin⟩
        exact ⟨v, (hget e' v hv).2, hvgid, hin⟩
  have hcovered : ∀ {q : Gid → Prop}, (∀ e w, s.workers e = some w → q w.gid) →
      ∀ e' w', Function.update s.workers e none e' = some w' → q w'.gid := fun hq e' w' hw' => hq e' w' (hget e' w' hw').2
  refine ⟨h.distinct, hstarting, hactive, ?_, ?_, ?_, ?_⟩
  · intro e₁ e₂ w₁ w₂ h₁ h₂ heq
    exact h.one e₁ e₂ w₁ w₂ (hget e₁ w₁ h₁).2 (hget e₂ w₂ h₂).2 heq
  · intro e' w' hw'
    exact h.fresh e' w' (hget e' w' hw').2
  · exact (card_busyGids_le hstarting hactive (hcovered fun e w hw => h.mem_busyGids.mpr ⟨e, w, hw, rfl⟩)).trans h.bound
  · have hs := h.starter
    unfold StarterOk at hs ⊢
    dsimp only
    cases hst : s.starter with
    | none => trivial
    | some place =>
      rw [hst] at hs
      cases place with
      | locked => trivial
      | reading busy => exact fun e' w' hw' hin => hs e' w' (hget e' w' hw').2 hin
      | counted busy | found busy => exact ⟨hs.1, hcovered (q := fun gid => gid ∈ busy) hs.2⟩
      | looping l => exact { hs with covers := hcovered (q := fun gid => gid ∈ l.busy ∨ gid ∈ l.started) hs.covers }
      | publishing l gid kind =>
        exact ⟨{ hs.1 with covers := hcovered (q := fun gid => gid ∈ l.busy ∨ gid ∈ l.started) hs.1.covers }, hs.2⟩

theorem Ok.workerStep (h : Ok maxConcurrent s) (hw : s.workers e = some w) {a : WorkerStep} (hs : s.workerStep R e w a = some s') :
    Ok maxConcurrent s' := by
  cases a with
  | register =>
    simp only [Manager.workerStep, Option.ite_none_right_eq_some] at hs
    obtain ⟨⟨hstage, hfree⟩, hs⟩ := hs
    cases hs
    refine h.restage hw rfl (Or.inl rfl) rfl rfl (h.same_starting hw (by rw [hstage]; rfl)) (fun gid e' => ?_) (Or.inl hfree)
    show (s.active.insert w.gid e).get? gid = some e' ↔ _
    rw [OrdMap.get?_insert]
    by_cases hgid : gid = w.gid
    · subst hgid
      rw [if_pos rfl]
      split
      · rename_i he
        exact ⟨fun _ => ⟨rfl, rfl⟩, fun _ => congrArg some he.symm⟩
      · rename_i he
        constructor
        · intro heq
          exact absurd (Option.some.inj heq).symm he
        · intro hother
          obtain ⟨v, hv, hvgid, -⟩ := (h.active w.gid e').mp hother
          exact absurd (h.one e' e v w hv hw hvgid) he
    · rw [if_neg hgid]
      split
      · rename_i he
        subst he
        constructor
        · intro hmine
          obtain ⟨v, hv, hvgid, -⟩ := (h.active gid e').mp hmine
          rw [hw] at hv
          cases hv
          exact absurd hvgid.symm hgid
        · rintro ⟨hmine, -⟩
          exact absurd hmine.symm hgid
      · exact Iff.rfl
  | clear =>
    simp only [Manager.workerStep, Option.ite_none_right_eq_some] at hs
    obtain ⟨hstage, hs⟩ := hs
    rw [if_pos (h.get_starting hw (by rw [hstage]; rfl))] at hs
    cases hs
    refine h.restage hw rfl (Or.inl rfl) rfl rfl (fun gid e' => ?_) (h.same_active hw (by rw [hstage]; rfl)) (Or.inr (by rw [hstage]; rfl))
    show (s.starting.erase w.gid).get? gid = some e' ↔ _
    rw [OrdMap.get?_erase]
    by_cases hgid : gid = w.gid
    · subst hgid
      rw [if_pos rfl]
      split
      · exact ⟨nofun, fun hin => absurd hin.2 Bool.false_ne_true⟩
      · rename_i he
        constructor
        · nofun
        · intro hother
          obtain ⟨v, hv, hvgid, -⟩ := (h.starting w.gid e').mp hother
          exact absurd (h.one e' e v w hv hw hvgid) he
    · rw [if_neg hgid]
      split
      · rename_i he
        subst he
        constructor
        · intro hmine
          obtain ⟨v, hv, hvgid, -⟩ := (h.starting gid e').mp hmine
          rw [hw] at hv
          cases hv
          exact absurd hvgid.symm hgid
        · rintro ⟨hmine, -⟩
          exact absurd hmine.symm hgid
      · exact Iff.rfl
  | askToken =>
    simp only [Manager.workerStep, Option.ite_none_right_eq_some] at hs
    obtain ⟨hstage, hs⟩ := hs
    cases hs
    split
    · exact h.moveOn hw (by rw [hstage]; rfl) (by rw [hstage]; rfl) s.cancelled
    · exact h.moveOn hw (by rw [hstage]; rfl) (by rw [hstage]; rfl) s.cancelled
  | askStatus =>
    simp only [Manager.workerStep, Option.ite_none_right_eq_some] at hs
    obtain ⟨⟨hstage, -⟩, hs⟩ := hs
    split at hs
    · cases hs
      exact h.moveOn hw (by rw [hstage]; rfl) (by rw [hstage]; rfl) s.cancelled
    · cases hs
      exact h.moveOn hw (by rw [hstage]; rfl) (by rw [hstage]; rfl) (insert e s.cancelled)
  | endDownload | judge =>
    simp only [Manager.workerStep, Option.ite_none_right_eq_some] at hs
    obtain ⟨hstage, hs⟩ := hs
    cases hs
    exact h.moveOn hw (by rw [hstage]; rfl) (by rw [hstage]; rfl) s.cancelled
  | write result done =>
    simp only [Manager.workerStep] at hs
    split at hs
    · rename_i current hstage
      rw [Option.ite_none_right_eq_some] at hs
      obtain ⟨hfree, hs⟩ := hs
      cases hs
      refine h.restage hw rfl (Or.inr ⟨hfree, ?_⟩) rfl rfl (h.same_starting hw (by rw [hstage]; rfl)) (h.same_active hw (by rw [hstage]; rfl))
        (Or.inr (by rw [hstage]; rfl))
      show TaskList.Distinct (if current then _ else s.list)
      split
      · exact distinct_finish h.distinct w result done
      · exact h.distinct
    · cases hs
  | leave =>
    simp only [Manager.workerStep, Option.ite_none_right_eq_some] at hs
    obtain ⟨⟨hstage, -⟩, hs⟩ := hs
    rw [if_pos (h.get_active hw (by rw [hstage]; rfl))] at hs
    cases hs
    exact h.leave hw hstage

/-! ## Steps of the starter -/

/-- A step that only moves the starter. -/
theorem Ok.moveStarter (h : Ok maxConcurrent s) {starter : Option Starter} (hs : StarterOk maxConcurrent { s with starter := starter }) :
    Ok maxConcurrent { s with starter := starter } := { h with starter := hs }

theorem getElem?_set_gid {tasks : List DownloadTask} {i : ℕ} {task' : DownloadTask} (hi : tasks[i]? = some task)
    (hgid : task'.gid = task.gid) : (tasks.set i task').map (·.gid) = tasks.map (·.gid) := by
  rw [List.map_set]
  refine List.ext_getElem? fun j => ?_
  rw [List.getElem?_set]
  split
  · rename_i hj
    subst hj
    rw [List.getElem?_map, hi, List.length_map, if_pos (List.getElem?_eq_some_iff.mp hi).1]
    exact congrArg some hgid
  · rfl

theorem start_some {task' : DownloadTask} (h : Engine.start task = some task') :
    task.status = .waiting ∧ task.hasData = true ∧ task'.gid = task.gid ∧ task'.status ≠ .waiting := by
  unfold Engine.start at h
  rw [Option.ite_none_right_eq_some] at h
  obtain ⟨⟨hstatus, hdata⟩, h⟩ := h
  cases h
  exact ⟨hstatus, hdata, rfl, by rintro ⟨⟩⟩

theorem start_none (h : Engine.start task = none) : task.status ≠ .waiting ∨ task.hasData = false := by
  unfold Engine.start at h
  by_cases hstatus : task.status = .waiting
  · right
    by_contra hdata
    rw [Bool.not_eq_false] at hdata
    rw [if_pos ⟨hstatus, hdata⟩] at h
    cases h
  · exact Or.inl hstatus

/-- A turn of the loop that passes over a task. -/
theorem LoopOk.pass (h : LoopOk maxConcurrent s l) (hi : s.list.tasks[l.index]? = some task)
    {skipped : List Gid} (hsub : ∀ gid ∈ l.skipped, gid ∈ skipped)
    (hpass : task.status ≠ .waiting ∨ task.hasData = false ∨ task.gid ∈ l.busy ∨ task.gid ∈ skipped) :
    LoopOk maxConcurrent s { l with index := l.index + 1, skipped := skipped } where
  slots := h.slots
  started_le := h.started_le
  covers := h.covers
  visited := by
    intro gid hgid
    obtain ⟨j, hj, hvisited⟩ := h.visited gid hgid
    exact ⟨j, Nat.lt_succ_of_lt hj, hvisited⟩
  passed := by
    intro j hj t ht
    rcases Nat.lt_succ_iff_lt_or_eq.mp hj with hj | rfl
    · rcases h.passed j hj t ht with hstatus | hdata | hbusy | hskipped
      · exact Or.inl hstatus
      · exact Or.inr (Or.inl hdata)
      · exact Or.inr (Or.inr (Or.inl hbusy))
      · exact Or.inr (Or.inr (Or.inr (hsub _ hskipped)))
    · rw [hi] at ht
      cases ht
      exact hpass
  nodup := h.nodup
  apart := h.apart

/-- The gid of the task at the index is not among those of the tasks before it. -/
theorem LoopOk.not_started (h : LoopOk maxConcurrent s l) (hd : TaskList.Distinct s.list)
    (hi : s.list.tasks[l.index]? = some task) : task.gid ∉ l.started := by
  intro hstarted
  obtain ⟨j, hj, old, hold, hgid⟩ := h.visited _ hstarted
  obtain ⟨hlt, -⟩ := List.getElem?_eq_some_iff.mp hi
  have heq : (s.list.tasks.map (·.gid))[j]? = (s.list.tasks.map (·.gid))[l.index]? := by
    rw [List.getElem?_map, List.getElem?_map, hold, hi]
    exact congrArg some hgid
  have hindex := (List.getElem?_inj (by rw [List.length_map]; omega) hd.nodup).mp heq
  omega

theorem Ok.visit (h : Ok maxConcurrent s) (hst : s.starter = some (.looping l)) : Ok maxConcurrent (s.visit l) := by
  have hl : LoopOk maxConcurrent s l := by
    have hs := h.starter
    unfold StarterOk at hs
    rwa [hst] at hs
  unfold Manager.visit
  split
  · exact h.moveStarter trivial
  rename_i hroom
  split
  · exact h.moveStarter trivial
  rename_i task hi
  split
  · rename_i hpass
    refine h.moveStarter ((hl.pass hi (fun _ hg => hg) ?_).of_eq rfl rfl)
    rcases hpass with hstatus | hbusy
    · exact Or.inl hstatus
    · exact Or.inr (Or.inr (Or.inl hbusy))
  · rename_i hpass
    rw [not_or, not_not] at hpass
    split
    · exact h.moveStarter
        ((hl.pass hi (fun _ hg => List.mem_cons_of_mem _ hg) (Or.inr (Or.inr (Or.inr List.mem_cons_self)))).of_eq rfl rfl)
    · split
      · rename_i hnone
        refine h.moveStarter ((hl.pass hi (fun _ hg => hg) ?_).of_eq rfl rfl)
        rcases start_none hnone with hstatus | hdata
        · exact Or.inl hstatus
        · exact Or.inr (Or.inl hdata)
      · rename_i task' hsome
        obtain ⟨-, -, hgid, hactive⟩ := start_some hsome
        have hbefore : ∀ j < l.index, (s.list.tasks.set l.index task')[j]? = s.list.tasks[j]? :=
          fun j hj => List.getElem?_set_ne (Nat.ne_of_gt hj)
        refine ⟨⟨?_, ?_⟩, h.starting, h.active, h.one, h.fresh, h.bound, ⟨⟨hl.slots, hl.started_le, hl.covers, ?_, ?_, hl.nodup, hl.apart⟩, ?_,
            ?_, ?_, ?_⟩⟩
        · show ((s.list.tasks.set l.index task').map (·.gid)).Nodup
          rw [getElem?_set_gid hi hgid]
          exact h.distinct.nodup
        · intro t ht
          rcases List.mem_or_eq_of_mem_set ht with ht | rfl
          · exact h.distinct.used t ht
          · rw [hgid]
            exact h.distinct.used task (List.mem_of_getElem? hi)
        · intro gid hstarted
          obtain ⟨j, hj, t, ht, hgid⟩ := hl.visited gid hstarted
          exact ⟨j, hj, t, (hbefore j hj).trans ht, hgid⟩
        · intro j hj t ht
          exact hl.passed j hj t ((hbefore j hj).symm.trans ht)
        · exact not_le.mp hroom
        · exact hpass.2
        · exact hl.not_started h.distinct hi
        · refine ⟨task', ?_, hgid, hactive⟩
          exact List.getElem?_set_self (List.getElem?_eq_some_iff.mp hi).1

/-- The gid of a worker that is started is new among the workers, and there is a slot for it. -/
theorem Ok.publish (h : Ok maxConcurrent s) {kind : TaskKind}
    (hst : s.starter = some (.publishing l gid kind)) : Ok maxConcurrent (s.publish l gid kind) := by
  have hs := h.starter
  unfold StarterOk at hs
  rw [hst] at hs
  obtain ⟨hl, hroom, hbusy, hstarted, task, hi, hgid, hstatus⟩ := hs
  have hnew : ∀ e w, s.workers e = some w → w.gid ≠ gid := by
    rintro e w hw rfl
    rcases hl.covers e w hw with hin | hin
    · exact hbusy hin
    · exact hstarted hin
  have hnone : s.workers s.nextEpoch = none := by
    by_contra hsome
    obtain ⟨w, hw⟩ := Option.ne_none_iff_exists'.mp hsome
    exact Nat.lt_irrefl _ (h.fresh _ w hw)
  have hget : ∀ e' w', (s.publish l gid kind).workers e' = some w' →
      e' = s.nextEpoch ∧ w' = ⟨gid, kind, .published⟩ ∨ e' ≠ s.nextEpoch ∧ s.workers e' = some w' := by
    intro e' w' hw'
    unfold Manager.publish at hw'
    dsimp only at hw'
    by_cases he : e' = s.nextEpoch
    · subst he
      rw [Function.update_self] at hw'
      exact Or.inl ⟨rfl, (Option.some.inj hw').symm⟩
    · rw [Function.update_of_ne he] at hw'
      exact Or.inr ⟨he, hw'⟩
  have hold : ∀ e' w', s.workers e' = some w' → (s.publish l gid kind).workers e' = some w' := by
    intro e' w' hw'
    unfold Manager.publish
    dsimp only
    rw [Function.update_of_ne, hw']
    rintro rfl
    rw [hnone] at hw'
    cases hw'
  have hself : (s.publish l gid kind).workers s.nextEpoch = some ⟨gid, kind, .published⟩ := Function.update_self ..
  have hstarting : ∀ g e', (s.publish l gid kind).starting.get? g = some e' ↔
      ∃ v, (s.publish l gid kind).workers e' = some v ∧ v.gid = g ∧ v.stage.inStarting = true := by
    intro g e'
    show (s.starting.insert gid s.nextEpoch).get? g = some e' ↔ _
    rw [OrdMap.get?_insert]
    split
    · rename_i hg
      subst hg
      constructor
      · intro he
        cases he
        exact ⟨_, hself, rfl, rfl⟩
      · rintro ⟨v, hv, hvgid, -⟩
        rcases hget e' v hv with ⟨rfl, -⟩ | ⟨-, hv⟩
        · rfl
        · exact absurd hvgid (hnew e' v hv)
    · rename_i hg
      rw [h.starting]
      constructor
      · rintro ⟨v, hv, hvgid, hin⟩
        exact ⟨v, hold e' v hv, hvgid, hin⟩
      · rintro ⟨v, hv, hvgid, hin⟩
        rcases hget e' v hv with ⟨-, rfl⟩ | ⟨-, hv⟩
        · exact absurd hvgid.symm hg
        · exact ⟨v, hv, hvgid, hin⟩
  have hactive : ∀ g e', (s.publish l gid kind).active.get? g = some e' ↔
      ∃ v, (s.publish l gid kind).workers e' = some v ∧ v.gid = g ∧ v.stage.inActive = true := by
    intro g e'
    show s.active.get? g = some e' ↔ _
    rw [h.active]
    constructor
    · rintro ⟨v, hv, hvgid, hin⟩
      exact ⟨v, hold e' v hv, hvgid, hin⟩
    · rintro ⟨v, hv, hvgid, hin⟩
      rcases hget e' v hv with ⟨-, rfl⟩ | ⟨-, hv⟩
      · cases hin
      · exact ⟨v, hv, hvgid, hin⟩
  have hcovers : ∀ e' w', (s.publish l gid kind).workers e' = some w' → w'.gid ∈ l.busy ∨ w'.gid ∈ l.started ++ [gid] := by
    intro e' w' hw'
    rcases hget e' w' hw' with ⟨-, rfl⟩ | ⟨-, hw'⟩
    · exact Or.inr (List.mem_append_right _ (List.mem_singleton_self _))
    · rcases hl.covers e' w' hw' with hin | hin
      · exact Or.inl hin
      · exact Or.inr (List.mem_append_left _ hin)
  refine ⟨h.distinct, hstarting, hactive, ?_, ?_, ?_, ⟨hl.slots, ?_, hcovers, ?_, ?_, ?_, ?_⟩⟩
  · intro e₁ e₂ w₁ w₂ h₁ h₂ heq
    rcases hget e₁ w₁ h₁ with ⟨rfl, rfl⟩ | ⟨-, h₁⟩
    · rcases hget e₂ w₂ h₂ with ⟨rfl, -⟩ | ⟨-, h₂⟩
      · rfl
      · exact absurd heq.symm (hnew e₂ w₂ h₂)
    · rcases hget e₂ w₂ h₂ with ⟨-, rfl⟩ | ⟨-, h₂⟩
      · exact absurd heq (hnew e₁ w₁ h₁)
      · exact h.one e₁ e₂ w₁ w₂ h₁ h₂ heq
  · intro e' w' hw'
    show e' < s.nextEpoch + 1
    rcases hget e' w' hw' with ⟨rfl, -⟩ | ⟨-, hw'⟩
    · exact Nat.lt_succ_self _
    · exact Nat.lt_succ_of_lt (h.fresh e' w' hw')
  · -- The busy gids are among those that were counted and those that this call has started.
    have hle : (s.publish l gid kind).busyGids.card ≤ (l.busy ∪ (l.started ++ [gid]).toFinset).card := by
      refine card_busyGids_le hstarting hactive fun e' w' hw' => ?_
      rw [Finset.mem_union, List.mem_toFinset]
      exact hcovers e' w' hw'
    have hunion := Finset.card_union_le l.busy (l.started ++ [gid]).toFinset
    have hlist := List.toFinset_card_le (l.started ++ [gid])
    rw [List.length_append, List.length_singleton] at hlist
    have hslots := hl.slots
    omega
  · show (l.started ++ [gid]).length ≤ l.slots
    rw [List.length_append, List.length_singleton]
    exact hroom
  · intro g hg
    rcases List.mem_append.mp hg with hg | hg
    · obtain ⟨j, hj, hvisited⟩ := hl.visited g hg
      exact ⟨j, Nat.lt_succ_of_lt hj, hvisited⟩
    · rw [List.mem_singleton.mp hg]
      exact ⟨l.index, Nat.lt_succ_self _, task, hi, hgid⟩
  · intro j hj t ht
    rcases Nat.lt_succ_iff_lt_or_eq.mp hj with hj | rfl
    · exact hl.passed j hj t ht
    · have ht : s.list.tasks[l.index]? = some t := ht
      rw [hi] at ht
      cases ht
      exact Or.inl hstatus
  · exact List.nodup_append.mpr ⟨hl.nodup, List.nodup_singleton gid, fun g hg g' hg' => by
      rw [List.mem_singleton.mp hg']
      rintro rfl
      exact hstarted hg⟩
  · intro g hg
    rcases List.mem_append.mp hg with hg | hg
    · exact hl.apart g hg
    · rw [List.mem_singleton.mp hg]
      exact hbusy

theorem Ok.starterStep (h : Ok maxConcurrent s) {a : StarterStep} (hs : s.starterStep maxConcurrent a = some s') : Ok maxConcurrent s' := by
  have hst := h.starter
  unfold StarterOk at hst
  cases a with
  | lock =>
    simp only [Manager.starterStep, Option.ite_none_right_eq_some] at hs
    obtain ⟨-, hs⟩ := hs
    cases hs
    exact h.moveStarter trivial
  | giveUp =>
    simp only [Manager.starterStep] at hs
    split at hs
    · cases hs
      exact h.moveStarter trivial
    · cases hs
  | readActive =>
    simp only [Manager.starterStep] at hs
    split at hs
    · cases hs
      refine h.moveStarter fun e w hw hin => ?_
      rw [List.mem_toFinset, OrdMap.mem_keys]
      exact ⟨e, h.get_active hw hin⟩
    · cases hs
  | readStarting =>
    simp only [Manager.starterStep] at hs
    split at hs
    · rename_i busy hplace
      rw [hplace] at hst
      cases hs
      split
      · exact h.moveStarter trivial
      · rename_i hroom
        refine h.moveStarter ⟨not_le.mp hroom, fun e w hw => ?_⟩
        rw [Finset.mem_union]
        rcases Stage.inStarting_or_inActive w.stage with hin | hin
        · right
          rw [List.mem_toFinset, OrdMap.mem_keys]
          exact ⟨e, h.get_starting hw hin⟩
        · exact Or.inl (hst e w hw hin)
    · cases hs
  | findStartable =>
    simp only [Manager.starterStep] at hs
    split at hs
    · rename_i busy hplace
      rw [hplace] at hst
      cases hs
      split
      · exact h.moveStarter hst
      · exact h.moveStarter trivial
    · cases hs
  | openList =>
    simp only [Manager.starterStep] at hs
    split at hs
    · rename_i busy hplace
      rw [hplace] at hst
      cases hs
      refine h.moveStarter ⟨Nat.add_sub_cancel' hst.1.le, Nat.zero_le _, fun e w hw => Or.inl (hst.2 e w hw), ?_, ?_, List.nodup_nil, ?_⟩
      · nofun
      · nofun
      · exact fun _ h => absurd h List.not_mem_nil
    · cases hs
  | visit =>
    simp only [Manager.starterStep] at hs
    split at hs
    · rename_i l hplace
      cases hs
      exact h.visit hplace
    · cases hs
  | publish =>
    simp only [Manager.starterStep] at hs
    split at hs
    · rename_i l gid kind hplace
      cases hs
      exact h.publish hplace
    · cases hs

/-! ## Runs -/

/-- Every step keeps the maps, the workers and the starter in step. -/
theorem Ok.step {a : WorkersAction} (h : Ok maxConcurrent s) (hs : s.step R maxConcurrent a = some s') : Ok maxConcurrent s' := by
  cases a with
  | ofSection a =>
    simp only [Manager.step, Option.ite_none_right_eq_some] at hs
    obtain ⟨hfree, hs⟩ := hs
    obtain ⟨list, hlist, rfl⟩ := Option.map_eq_some_iff.mp hs
    refine { h with distinct := h.distinct.step hlist, starter := ?_ }
    have hst := h.starter
    rw [Bool.and_eq_true] at hfree
    have hopen := hfree.1
    unfold StarterOk at hst ⊢
    unfold tasksFree at hopen
    dsimp only
    cases hplace : s.starter with
    | none => trivial
    | some place =>
      rw [hplace] at hst hopen
      cases place with
      | locked => trivial
      | reading busy => exact hst
      | counted busy => exact hst
      | found busy => exact hst
      | looping l => cases hopen
      | publishing l gid kind => cases hopen
  | setUpdating gids | cancel e =>
    cases hs
    exact { h with starter := h.starter.of_eq rfl rfl rfl }
  | starter a => exact h.starterStep hs
  | worker e a =>
    obtain ⟨w, hw, hs⟩ := Option.bind_eq_some_iff.mp hs
    exact h.workerStep hw hs

/-- So they are in every run. -/
theorem Reachable.ok (h : s.Reachable R maxConcurrent) : Ok maxConcurrent s := by
  refine Reach.invariant (fun s hs => ?_) (fun s s' hinv hs => ?_) h
  · obtain ⟨tasks, epoch, hnodup, rfl⟩ := hs
    exact ok_start hnodup epoch
  · obtain ⟨a, hs⟩ := hs
    exact hinv.step hs

/-! ## What the starter goes by -/

/-- It was so in a state of the call of `try_start_next_unlocked` that is under way. The latest state comes first. -/
def Saw (states : List Manager) (p : Manager → Prop) : Prop := ∃ u ∈ states.takeWhile (·.starter.isSome), p u

/-- The gid was in one of the two maps when the call read it. -/
def WasBusy (states : List Manager) (gid : Gid) : Prop :=
  Saw states fun u => u.starter = some .locked ∧ gid ∈ u.active.keys ∨ ∃ busy, u.starter = some (.reading busy) ∧ gid ∈ u.starting.keys

/-- The gid was being updated when the loop of the call was at its task. -/
def WasUpdated (states : List Manager) (gid : Gid) : Prop :=
  Saw states fun u => gid ∈ u.updating ∧ ∃ l, u.starter = some (.looping l) ∧ ∃ task, u.list.tasks[l.index]? = some task ∧ task.gid = gid

/-- The call has made the task Active, to start its worker next. -/
def WasStarted (states : List Manager) (gid : Gid) : Prop := Saw states fun u => ∃ l kind, u.starter = some (.publishing l gid kind)

/-- What the call has noted so far. -/
def noted (s : Manager) : StartLoop :=
  match s.starter with
  | some (.reading busy) | some (.counted busy) | some (.found busy) => ⟨busy, 0, 0, [], []⟩
  | some (.looping l) | some (.publishing l ..) => l
  | none | some .locked => ⟨∅, 0, 0, [], []⟩

/-- What is noted was so when it was noted. -/
structure Grounded (l : StartLoop) (states : List Manager) : Prop where
  busy : ∀ gid ∈ l.busy, WasBusy states gid
  skipped : ∀ gid ∈ l.skipped, WasUpdated states gid
  started : ∀ gid ∈ l.started, WasStarted states gid

variable {past : List Manager} {p : Manager → Prop}

theorem Saw.later (h : Saw (s :: past) p) (hs : s'.starter.isSome = true) : Saw (s' :: s :: past) p := by
  obtain ⟨u, hu, hp⟩ := h
  refine ⟨u, ?_, hp⟩
  rw [List.takeWhile_cons_of_pos (p := fun u : Manager => u.starter.isSome) hs]
  exact List.mem_cons_of_mem _ hu

theorem Saw.here (h : p s) (hs : s.starter.isSome = true) : Saw (s :: past) p := by
  refine ⟨s, ?_, h⟩
  rw [List.takeWhile_cons_of_pos (p := fun u : Manager => u.starter.isSome) hs]
  exact List.mem_cons_self

theorem Grounded.later (h : Grounded l (s :: past)) (hs : s'.starter.isSome = true) : Grounded l (s' :: s :: past) :=
  ⟨fun gid hgid => (h.busy gid hgid).later hs, fun gid hgid => (h.skipped gid hgid).later hs, fun gid hgid => (h.started gid hgid).later hs⟩

/-- A call that has noted nothing. -/
theorem grounded_empty {states : List Manager} : Grounded ⟨∅, 0, 0, [], []⟩ states :=
  ⟨fun _ h => absurd h (Finset.notMem_empty _), fun _ h => absurd h List.not_mem_nil, fun _ h => absurd h List.not_mem_nil⟩

/-- A step that leaves the starter where it is. -/
theorem Grounded.keep (h : Grounded s.noted (s :: past)) (hs : s'.starter = s.starter) : Grounded s'.noted (s' :: s :: past) := by
  have hnoted : s'.noted = s.noted := by
    unfold noted
    rw [hs]
  rw [hnoted]
  cases hst : s.starter with
  | none =>
    unfold noted
    rw [hst]
    exact grounded_empty
  | some place => exact h.later (by rw [hs, hst]; rfl)

theorem starter_workerStep {a : WorkerStep} (hs : s.workerStep R e w a = some s') : s'.starter = s.starter := by
  cases a <;> simp only [Manager.workerStep, Option.ite_none_right_eq_some] at hs
  case write result done =>
    split at hs
    · rw [Option.ite_none_right_eq_some] at hs
      obtain ⟨-, hs⟩ := hs
      cases hs
      rfl
    · cases hs
  case askStatus =>
    obtain ⟨-, hs⟩ := hs
    split at hs <;> cases hs <;> rfl
  all_goals
    obtain ⟨-, hs⟩ := hs
    cases hs
    rfl

theorem Grounded.visit (h : Grounded l (s :: past)) (hst : s.starter = some (.looping l)) :
    Grounded (s.visit l).noted (s.visit l :: s :: past) := by
  unfold Manager.visit
  split
  · exact grounded_empty
  split
  · exact grounded_empty
  rename_i task hi
  split
  · exact { h.later rfl with }
  split
  · rename_i hupdating
    refine { h.later rfl with skipped := fun gid hgid => ?_ }
    rcases List.mem_cons.mp hgid with rfl | hgid
    · exact Saw.later (Saw.here ⟨hupdating, l, hst, task, hi, rfl⟩ (by rw [hst]; rfl)) rfl
    · exact (h.skipped gid hgid).later rfl
  · split
    · exact { h.later rfl with }
    · exact h.later rfl

theorem Grounded.starterStep {a : StarterStep} (h : Grounded s.noted (s :: past)) (hs : s.starterStep maxConcurrent a = some s') :
    Grounded s'.noted (s' :: s :: past) := by
  unfold noted at h
  cases a with
  | lock =>
    simp only [Manager.starterStep, Option.ite_none_right_eq_some] at hs
    obtain ⟨-, hs⟩ := hs
    cases hs
    exact grounded_empty
  | giveUp =>
    simp only [Manager.starterStep] at hs
    split at hs
    · cases hs
      exact grounded_empty
    · cases hs
  | readActive =>
    simp only [Manager.starterStep] at hs
    split at hs
    · rename_i hplace
      cases hs
      refine { grounded_empty with busy := fun gid hgid => ?_ }
      exact Saw.later (Saw.here (Or.inl ⟨hplace, List.mem_toFinset.mp hgid⟩) (by rw [hplace]; rfl)) rfl
    · cases hs
  | readStarting =>
    simp only [Manager.starterStep] at hs
    split at hs
    · rename_i busy hplace
      rw [hplace] at h
      cases hs
      split
      · exact grounded_empty
      · refine { h.later rfl with busy := fun gid hgid => ?_ }
        rcases Finset.mem_union.mp hgid with hgid | hgid
        · exact (h.busy gid hgid).later rfl
        · exact Saw.later (Saw.here (Or.inr ⟨busy, hplace, List.mem_toFinset.mp hgid⟩) (by rw [hplace]; rfl)) rfl
    · cases hs
  | findStartable =>
    simp only [Manager.starterStep] at hs
    split at hs
    · rename_i busy hplace
      rw [hplace] at h
      cases hs
      split
      · exact h.later rfl
      · exact grounded_empty
    · cases hs
  | openList =>
    simp only [Manager.starterStep] at hs
    split at hs
    · rename_i busy hplace
      rw [hplace] at h
      cases hs
      exact { h.later rfl with }
    · cases hs
  | visit =>
    simp only [Manager.starterStep] at hs
    split at hs
    · rename_i l hplace
      rw [hplace] at h
      cases hs
      exact h.visit hplace
    · cases hs
  | publish =>
    simp only [Manager.starterStep] at hs
    split at hs
    · rename_i l gid kind hplace
      rw [hplace] at h
      cases hs
      refine { h.later rfl with started := fun g hg => ?_ }
      rcases List.mem_append.mp hg with hg | hg
      · exact (h.started g hg).later rfl
      · rw [List.mem_singleton.mp hg]
        exact Saw.later (Saw.here ⟨l, kind, hplace⟩ (by rw [hplace]; rfl)) rfl
    · cases hs

/-- What the starter has noted still comes from states of the run. -/
theorem Grounded.step {a : WorkersAction} (h : Grounded s.noted (s :: past)) (hs : s.step R maxConcurrent a = some s') :
    Grounded s'.noted (s' :: s :: past) := by
  cases a with
  | ofSection a =>
    simp only [Manager.step, Option.ite_none_right_eq_some] at hs
    obtain ⟨list, -, rfl⟩ := Option.map_eq_some_iff.mp hs.2
    exact h.keep rfl
  | setUpdating gids =>
    cases hs
    exact h.keep rfl
  | cancel e =>
    cases hs
    exact h.keep rfl
  | starter a => exact h.starterStep hs
  | worker e a =>
    obtain ⟨w, -, hs⟩ := Option.bind_eq_some_iff.mp hs
    exact h.keep (starter_workerStep hs)

/-- The runs, each as its states. -/
def History (R : OptionReader) (maxConcurrent : ℕ) : List Manager → Prop :=
  Trace (fun s => ∃ tasks epoch, (tasks.map (·.gid)).Nodup ∧ s = start tasks epoch) fun s s' => ∃ a, s.step R maxConcurrent a = some s'

theorem History.grounded (h : History R maxConcurrent (s :: past)) : Grounded s.noted (s :: past) := by
  refine Trace.invariant (I := fun s past => Grounded s.noted (s :: past)) (fun s hs => ?_) (fun s s' past hinv hs => ?_) h
  · obtain ⟨tasks, epoch, -, rfl⟩ := hs
    exact grounded_empty
  · obtain ⟨a, hs⟩ := hs
    exact hinv.step hs

end Manager

end Engine

end Risuko
