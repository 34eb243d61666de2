import Risuko.Engine.Calls
import Risuko.Lemmas.Workers

/-!
# Calls and the workers they stop

A worker passes its startup check only while its task is Active, and stays in `active_downloads` until it has written what came of the download. So
whoever takes the task out of Active and looks there afterwards finds the worker; until it has cancelled the token, its call owes that (`Calls.Ok`).
-/

namespace Risuko

namespace Engine

variable {R : OptionReader} {maxConcurrent : ℕ} {tasks tasks' : List DownloadTask} {gid : Gid}
variable {g : Gid}

/-! ## Active tasks -/

theorem hasActive_iff : hasActive tasks gid = true ↔ ∃ t ∈ tasks, t.gid = gid ∧ t.status = .active := by
  simp [hasActive]

theorem hasActive_of_forall₂ {rel : DownloadTask → DownloadTask → Prop} (h : List.Forall₂ rel tasks tasks')
    (hrel : ∀ t t', rel t t' → t.gid = gid → t.status = .active → t'.gid = gid ∧ t'.status = .active)
    (hactive : hasActive tasks gid = true) : hasActive tasks' gid = true := by
  obtain ⟨t, ht, hgid, hstatus⟩ := hasActive_iff.mp hactive
  have hflip : List.Forall₂ (flip rel) tasks' tasks := List.Forall₂.flip h
  obtain ⟨t', ht', hpair⟩ := exists_of_forall₂ hflip ht
  exact hasActive_iff.mpr ⟨t', ht', hrel t t' hpair hgid hstatus⟩

/-- An edit that leaves an Active task of this gid Active. -/
theorem hasActive_editFirst {p : DownloadTask → Bool} {edit : DownloadTask → Option DownloadTask} (h : editFirst p edit tasks = some tasks')
    (he : ∀ t t', tasks.find? p = some t → edit t = some t' → t.gid = gid → t.status = .active → t'.gid = gid ∧ t'.status = .active)
    (hactive : hasActive tasks gid = true) : hasActive tasks' gid = true :=
  hasActive_of_forall₂ (forall₂_editFirst (fun _ hgid hstatus => ⟨hgid, hstatus⟩) h he) (fun _ _ hrel => hrel) hactive

/-- An edit that leaves Active tasks as they are. -/
theorem hasActive_map {edit : DownloadTask → DownloadTask} (he : ∀ t, t.status = .active → edit t = t) (hactive : hasActive tasks gid = true) :
    hasActive (tasks.map edit) gid = true := by
  obtain ⟨t, ht, hgid, hstatus⟩ := hasActive_iff.mp hactive
  exact hasActive_iff.mpr ⟨t, List.mem_map.mpr ⟨t, ht, he t hstatus⟩, hgid, hstatus⟩

/-- An edit of another task. -/
theorem hasActive_editTask_of_ne {edit : DownloadTask → Option DownloadTask} (h : editTask g edit tasks = some tasks') (hne : g ≠ gid)
    (hactive : hasActive tasks gid = true) : hasActive tasks' gid = true := by
  refine hasActive_editFirst h (fun t t' hfind _ hgid _ => ?_) hactive
  exact absurd ((found_gid hfind).2.symm.trans hgid) hne

/-- A section that stops no task. -/
theorem hasActive_single {a : Section} (hsingle : a.isSingle = true) (h : a.apply R tasks = some tasks')
    (hactive : hasActive tasks gid = true) : hasActive tasks' gid = true := by
  cases a with
  | enqueue now task =>
    cases h
    obtain ⟨t, ht, hkept⟩ := hasActive_iff.mp hactive
    exact hasActive_iff.mpr ⟨t, List.mem_append_left _ ht, hkept⟩
  | unpause g =>
    refine hasActive_editFirst h (fun t t' hfind _ _ hstatus => ?_) hactive
    have hfound := List.find?_some hfind
    have hresumable := (Bool.and_eq_true_iff.mp hfound).2
    rw [resumable, hstatus] at hresumable
    cases hresumable
  | unpauseAll torrentGids =>
    cases h
    refine hasActive_map (fun t hstatus => ?_) hactive
    unfold unpauseAny
    rw [if_pos (by rw [hstatus]; decide)]
  | startTaskNow g =>
    refine hasActive_editFirst h (fun t t' _ hedit _ hstatus => ?_) hactive
    rw [Engine.startTaskNow, if_neg (by rw [hstatus]; decide)] at hedit
    cases hedit
  | checkScheduled now =>
    cases h
    refine hasActive_map (fun t hstatus => ?_) hactive
    unfold Engine.checkScheduled
    rw [if_pos (Or.inl (by rw [hstatus]; decide))]
  | _ => cases hsingle

/-- `update_task` without a restart. -/
theorem hasActive_updateTask {patch : TaskPatch} {privateTorrent : Bool} (hstaged : stagedCopy R g patch privateTorrent tasks = none)
    (h : (Section.updateTask g patch privateTorrent).apply R tasks = some tasks') (hactive : hasActive tasks gid = true) :
    hasActive tasks' gid = true := by
  refine hasActive_editFirst h (fun t t' hfind hedit hgid hstatus => ?_) hactive
  obtain ⟨pair, hpair, rfl⟩ := Option.map_eq_some_iff.mp hedit
  unfold stagedCopy at hstaged
  rw [hfind, Option.bind_some, hpair, Option.bind_some] at hstaged
  unfold updateTask at hpair
  dsimp only at hpair
  split at hpair
  · cases hpair
  split at hpair
  · cases hpair
    cases hstaged
  · cases hpair
    exact ⟨(gid_applyTaskPatch patch).trans hgid, hstatus⟩

/-- With a restart, the copy is of the task with that gid. -/
theorem gid_stagedCopy {patch : TaskPatch} {privateTorrent : Bool} {staged : DownloadTask}
    (h : stagedCopy R g patch privateTorrent tasks = some staged) : staged.gid = g := by
  unfold stagedCopy at h
  obtain ⟨pair, hpair, hstaged⟩ := Option.bind_eq_some_iff.mp h
  obtain ⟨t, hfind, hupdate⟩ := Option.bind_eq_some_iff.mp hpair
  have hgid := (found_gid hfind).2
  unfold updateTask at hupdate
  dsimp only at hupdate
  split at hupdate
  · cases hupdate
  split at hupdate
  · cases hupdate
    cases hstaged
    exact (gid_applyTaskPatch patch).trans hgid
  · cases hupdate
    cases hstaged

theorem hasActive_writeBack {staged : DownloadTask} (h : (Section.writeBack staged).apply R tasks = some tasks')
    (hactive : hasActive tasks gid = true) : hasActive tasks' gid = true := by
  refine hasActive_editFirst h (fun t t' hfind hedit hgid hstatus => ?_) hactive
  cases hedit
  exact ⟨(found_gid hfind).2.symm.trans hgid, hstatus⟩

theorem hasActive_revertRestart (h : (Section.revertRestart g).apply R tasks = some tasks')
    (hactive : hasActive tasks gid = true) : hasActive tasks' gid = true := by
  refine hasActive_editFirst h (fun t t' _ hedit _ hstatus => ?_) hactive
  rw [if_neg (by rw [hstatus]; decide)] at hedit
  cases hedit

/-! ## Steps of the starter and of the workers -/

namespace Manager

variable {s s' : Manager}
variable {e : Epoch} {w : Worker} {a : Section}

/-- What becomes of the workers that have passed their check: such a worker has just seen that its task is Active, or had passed it before, and its
task is Active still if it was. -/
structure Carried (s s' : Manager) : Prop where
  cancelled : s.cancelled ⊆ s'.cancelled
  passed : ∀ e w', s'.workers e = some w' → w'.stage.passed = true →
    hasActive s'.list.tasks w'.gid = true ∨ e ∈ s'.cancelled ∨
      ∃ w, s.workers e = some w ∧ w.gid = w'.gid ∧ w.stage.passed = true ∧
        (hasActive s.list.tasks w.gid = true → hasActive s'.list.tasks w.gid = true)

theorem Carried.of_eq (hcancelled : s'.cancelled = s.cancelled) (hlist : s'.list = s.list) (hworkers : s'.workers = s.workers) : Carried s s' where
  cancelled := hcancelled.ge
  passed := by
    rw [hworkers, hlist]
    exact fun e w hw hpassed => Or.inr (Or.inr ⟨w, hw, rfl, hpassed, id⟩)

/-- A worker that goes to another stage. -/
theorem Carried.setStage {stage : Stage} {base : Manager} (hw : s.workers e = some w)
    (hcancelled : s.cancelled ⊆ base.cancelled) (hlist : base.list = s.list) (hworkers : base.workers = s.workers)
    (hstage : stage.passed = true → hasActive s.list.tasks w.gid = true ∨ e ∈ base.cancelled ∨ w.stage.passed = true) :
    Carried s (base.setStage e w stage) where
  cancelled := hcancelled
  passed := by
    intro e' w' hw' hpassed
    show hasActive base.list.tasks w'.gid = true ∨ e' ∈ base.cancelled ∨ _
    have hw' : Function.update base.workers e (some { w with stage := stage }) e' = some w' := hw'
    rw [hworkers] at hw'
    by_cases he : e' = e
    · subst he
      rw [Function.update_self] at hw'
      cases hw'
      rcases hstage hpassed with hactive | hin | hold
      · exact Or.inl (hlist ▸ hactive)
      · exact Or.inr (Or.inl hin)
      · exact Or.inr (Or.inr ⟨w, hw, rfl, hold, fun hactive => hlist ▸ hactive⟩)
    · rw [Function.update_of_ne he] at hw'
      exact Or.inr (Or.inr ⟨w', hw', rfl, hpassed, fun hactive => hlist ▸ hactive⟩)

/-- What a worker writes when it ends concerns no other gid. -/
theorem hasActive_finish {result : DownloadResult} {done : Bool} (hne : w.gid ≠ gid) (hactive : hasActive tasks gid = true) :
    hasActive (((finishSection w result done).apply R tasks).getD tasks) gid = true := by
  cases happly : (finishSection w result done).apply R tasks with
  | none => exact hactive
  | some tasks' =>
    rw [Option.getD_some]
    unfold finishSection at happly
    split at happly
    · exact hasActive_editTask_of_ne happly hne hactive
    · exact hasActive_editTask_of_ne happly hne hactive

theorem Ok.carried_worker (h : Ok maxConcurrent s) (hw : s.workers e = some w) {a : WorkerStep}
    (hs : s.workerStep R e w a = some s') : Carried s s' := by
  cases a with
  | register | clear =>
    simp only [Manager.workerStep, Option.ite_none_right_eq_some] at hs
    obtain ⟨-, hs⟩ := hs
    cases hs
    exact Carried.setStage hw subset_rfl rfl rfl (by rintro ⟨⟩)
  | askToken =>
    simp only [Manager.workerStep, Option.ite_none_right_eq_some] at hs
    obtain ⟨-, hs⟩ := hs
    cases hs
    refine Carried.setStage hw subset_rfl rfl rfl fun hpassed => ?_
    split at hpassed
    · rename_i hcancelled
      exact Or.inr (Or.inl (of_decide_eq_true (Bool.and_eq_true_iff.mp hcancelled).2))
    · cases hpassed
  | askStatus =>
    simp only [Manager.workerStep, Option.ite_none_right_eq_some] at hs
    obtain ⟨-, hs⟩ := hs
    split at hs
    · rename_i hactive
      cases hs
      exact Carried.setStage hw subset_rfl rfl rfl fun _ => Or.inl hactive
    · cases hs
      exact Carried.setStage hw (Finset.subset_insert e s.cancelled) rfl rfl fun _ => Or.inr (Or.inl (Finset.mem_insert_self e s.cancelled))
  | endDownload | judge =>
    simp only [Manager.workerStep, Option.ite_none_right_eq_some] at hs
    obtain ⟨hstage, hs⟩ := hs
    cases hs
    exact Carried.setStage hw subset_rfl rfl rfl fun _ => Or.inr (Or.inr (by rw [hstage]; rfl))
  | write result done =>
    simp only [Manager.workerStep] at hs
    split at hs
    · rw [Option.ite_none_right_eq_some] at hs
      obtain ⟨-, hs⟩ := hs
      cases hs
      refine ⟨subset_rfl, fun e' w' hw' hpassed => ?_⟩
      have hw' : Function.update s.workers e (some { w with stage := .written }) e' = some w' := hw'
      by_cases he : e' = e
      · subst he
        rw [Function.update_self] at hw'
        cases hw'
        cases hpassed
      · rw [Function.update_of_ne he] at hw'
        have hne : w.gid ≠ w'.gid := fun hgid => he (h.one e' e w' w hw' hw hgid.symm)
        refine Or.inr (Or.inr ⟨w', hw', rfl, hpassed, fun hactive => ?_⟩)
        show hasActive (if _ then _ else s.list : TaskList).tasks w'.gid = true
        split
        · exact hasActive_finish hne hactive
        · exact hactive
    · cases hs
  | leave =>
    simp only [Manager.workerStep, Option.ite_none_right_eq_some] at hs
    obtain ⟨-, hs⟩ := hs
    cases hs
    refine ⟨subset_rfl, fun e' w' hw' hpassed => ?_⟩
    have hw' : Function.update s.workers e none e' = some w' := hw'
    by_cases he : e' = e
    · subst he
      rw [Function.update_self] at hw'
      cases hw'
    · rw [Function.update_of_ne he] at hw'
      exact Or.inr (Or.inr ⟨w', hw', rfl, hpassed, id⟩)

/-- The starter makes tasks Active, and its workers have still to pass their check. -/
theorem carried_starter {a : StarterStep} (hs : s.starterStep maxConcurrent a = some s') : Carried s s' := by
  cases a with
  | lock =>
    simp only [Manager.starterStep, Option.ite_none_right_eq_some] at hs
    obtain ⟨-, hs⟩ := hs
    cases hs
    exact .of_eq rfl rfl rfl
  | visit =>
    simp only [Manager.starterStep] at hs
    split at hs
    · cases hs
      unfold Manager.visit
      split
      · exact .of_eq rfl rfl rfl
      split
      · exact .of_eq rfl rfl rfl
      rename_i l _ _ _ task hi
      split
      · exact .of_eq rfl rfl rfl
      split
      · exact .of_eq rfl rfl rfl
      split
      · exact .of_eq rfl rfl rfl
      · rename_i task' hsome
        refine ⟨subset_rfl, fun e w hw hpassed => Or.inr (Or.inr ⟨w, hw, rfl, hpassed, fun hactive => ?_⟩)⟩
        obtain ⟨t, ht, hgid, hstatus⟩ := hasActive_iff.mp hactive
        obtain ⟨j, hj⟩ := List.mem_iff_getElem?.mp ht
        have hne : l.index ≠ j := by
          rintro rfl
          rw [hi] at hj
          cases hj
          rw [(start_some hsome).1] at hstatus
          cases hstatus
        exact hasActive_iff.mpr ⟨t, List.mem_of_getElem? ((List.getElem?_set_ne hne).trans hj), hgid, hstatus⟩
    · cases hs
  | publish =>
    simp only [Manager.starterStep] at hs
    split at hs
    · rename_i l gid kind _
      cases hs
      refine ⟨subset_rfl, fun e w' hw' hpassed => ?_⟩
      have hw' : Function.update s.workers s.nextEpoch (some ⟨gid, kind, .published⟩) e = some w' := hw'
      by_cases he : e = s.nextEpoch
      · subst he
        rw [Function.update_self] at hw'
        cases hw'
        cases hpassed
      · rw [Function.update_of_ne he] at hw'
        exact Or.inr (Or.inr ⟨w', hw', rfl, hpassed, id⟩)
    · cases hs
  | _ =>
    simp only [Manager.starterStep] at hs
    split at hs
    · cases hs
      exact .of_eq rfl rfl rfl
    · cases hs

/-! ## What a call writes -/

theorem write_some (h : s.write R a = some s') : s.tasksFree = true ∧ s' = { s with list := (s.list.step R a).getD s.list } := by
  unfold write at h
  rw [Option.ite_none_right_eq_some] at h
  obtain ⟨hfree, h⟩ := h
  cases h
  exact ⟨hfree, rfl⟩

/-- The list after a section that could be taken, or the list before. -/
theorem write_tasks (h : s.write R a = some s') :
    s'.list.tasks = s.list.tasks ∨ a.apply R s.list.tasks = some s'.list.tasks := by
  obtain ⟨-, rfl⟩ := write_some h
  dsimp only
  cases hstep : s.list.step R a with
  | none => exact Or.inl rfl
  | some list => exact Or.inr (TaskList.step_cases hstep).2.1

theorem Ok.write (h : Ok maxConcurrent s) (ha : a.isWorkers = false) (hs : s.write R a = some s') : Ok maxConcurrent s' := by
  obtain ⟨hfree, rfl⟩ := write_some hs
  cases hstep : s.list.step R a with
  | none => exact h
  | some list =>
    refine h.step (R := R) (a := .ofSection a) ?_
    simp only [Manager.step]
    rw [hfree, ha, hstep]
    rfl

theorem Ok.cancel (h : Ok maxConcurrent s) (e : Epoch) : Ok maxConcurrent (s.cancel e) := { h with starter := h.starter.of_eq rfl rfl rfl }

theorem Ok.setUpdating (h : Ok maxConcurrent s) (gids : Finset Gid) : Ok maxConcurrent { s with updating := gids } :=
  { h with starter := h.starter.of_eq rfl rfl rfl }

theorem mem_tokens {workers : OrdMap Gid Epoch} (h : workers.get? gid = some e) : e ∈ tokens workers :=
  List.mem_map.mpr ⟨(gid, e), OrdMap.get?_eq_some_iff.mp h, rfl⟩

end Manager

/-! ## The calls in flight -/

/-- The first task of a gid is the only one. -/
theorem hasActive_found {list : TaskList} (h : list.Distinct) (hactive : hasActive list.tasks gid = true) :
    (list.tasks.find? (·.gid == gid)).any (·.status == .active) = true := by
  obtain ⟨t, ht, hgid, hstatus⟩ := hasActive_iff.mp hactive
  cases hfind : list.tasks.find? (·.gid == gid) with
  | none => exact absurd (beq_iff_eq.mpr hgid) (List.find?_eq_none.mp hfind t ht)
  | some found =>
    obtain ⟨hmem, hfound⟩ := found_gid hfind
    have heq : found = t := List.inj_on_of_nodup_map h.nodup hmem ht (hfound.trans hgid.symm)
    rw [Option.any_some, heq, hstatus]
    rfl

namespace Calls

variable {s s' : Calls}
variable {m : Manager} {i : ℕ} {op : Op} {next : Option Op} {a : Section} {e : Epoch}

structure Ok (maxConcurrent : ℕ) (s : Calls) : Prop where
  manager : Manager.Ok maxConcurrent s.manager
  found : ∀ stopping gid e, Op.write stopping gid (some e) ∈ s.ops → e ∈ s.manager.cancelled
  covered : ∀ e w, s.manager.workers e = some w → w.stage.passed = true →
    hasActive s.manager.list.tasks w.gid = true ∨ e ∈ s.manager.cancelled ∨ ∃ op ∈ s.ops, op.Owes w.gid e

theorem ok_start {tasks : List DownloadTask} (h : (tasks.map (·.gid)).Nodup) (epoch : Epoch) : Ok maxConcurrent (start tasks epoch) where
  manager := Manager.ok_start h epoch
  found := nofun
  covered := nofun

theorem Ok.carried (h : Ok maxConcurrent s) (hm : Manager.Ok maxConcurrent m) (hc : Manager.Carried s.manager m) :
    Ok maxConcurrent ⟨m, s.ops⟩ where
  manager := hm
  found := fun stopping gid e hop => hc.cancelled (h.found stopping gid e hop)
  covered := by
    intro e w' hw' hpassed
    rcases hc.passed e w' hw' hpassed with hactive | hin | ⟨w, hw, hgid, hpassed, hkept⟩
    · exact Or.inl hactive
    · exact Or.inr (Or.inl hin)
    · rw [← hgid]
      rcases h.covered e w hw hpassed with hactive | hin | howes
      · exact Or.inl (hkept hactive)
      · exact Or.inr (Or.inl (hc.cancelled hin))
      · exact Or.inr (Or.inr howes)

/-- The first lock of a call. -/
theorem Ok.begun (h : Ok maxConcurrent s) {op : Option Op} (hm : Manager.Ok maxConcurrent m)
    (hworkers : m.workers = s.manager.workers) (hcancelled : m.cancelled = s.manager.cancelled)
    (hfound : ∀ stopping gid e, op ≠ some (.write stopping gid (some e)))
    (hactive : ∀ gid e, hasActive s.manager.list.tasks gid = true → hasActive m.list.tasks gid = true ∨ ∃ op' ∈ op, op'.Owes gid e) :
    Ok maxConcurrent ⟨m, s.ops ++ op.toList⟩ where
  manager := hm
  found := by
    intro stopping gid e hop
    rcases List.mem_append.mp hop with hop | hop
    · rw [hcancelled]
      exact h.found stopping gid e hop
    · exact absurd (Option.mem_toList.mp hop) (hfound stopping gid e)
  covered := by
    intro e w hw hpassed
    dsimp only at hw ⊢
    rw [hworkers] at hw
    rw [hcancelled]
    rcases h.covered e w hw hpassed with hwas | hin | ⟨op', hop, howes⟩
    · rcases hactive w.gid e hwas with hkept | ⟨op', hop, howes⟩
      · exact Or.inl hkept
      · exact Or.inr (Or.inr ⟨op', List.mem_append_right _ (Option.mem_toList.mpr hop), howes⟩)
    · exact Or.inr (Or.inl hin)
    · exact Or.inr (Or.inr ⟨op', List.mem_append_left _ hop, howes⟩)

/-- The next lock of a call. -/
theorem Ok.advanced (h : Ok maxConcurrent s) (hi : s.ops[i]? = some op)
    (hm : Manager.Ok maxConcurrent m) (hworkers : m.workers = s.manager.workers) (hcancelled : s.manager.cancelled ⊆ m.cancelled)
    (hfound : ∀ stopping gid e, next = some (.write stopping gid (some e)) → e ∈ m.cancelled)
    (hactive : ∀ e w, s.manager.workers e = some w → w.stage.passed = true → hasActive s.manager.list.tasks w.gid = true →
      hasActive m.list.tasks w.gid = true ∨ e ∈ m.cancelled)
    (howes : ∀ e w, s.manager.workers e = some w → w.stage.passed = true → op.Owes w.gid e →
      e ∈ m.cancelled ∨ ∃ op' ∈ next, op'.Owes w.gid e) :
    Ok maxConcurrent ⟨m, s.ops.eraseIdx i ++ next.toList⟩ where
  manager := hm
  found := by
    intro stopping gid e hop
    rcases List.mem_append.mp hop with hop | hop
    · exact hcancelled (h.found stopping gid e (List.mem_of_mem_eraseIdx hop))
    · exact hfound stopping gid e (Option.mem_toList.mp hop)
  covered := by
    intro e w hw hpassed
    dsimp only at hw ⊢
    rw [hworkers] at hw
    rcases h.covered e w hw hpassed with hwas | hin | ⟨old, hold, hold'⟩
    · rcases hactive e w hw hpassed hwas with hkept | hin
      · exact Or.inl hkept
      · exact Or.inr (Or.inl hin)
    · exact Or.inr (Or.inl (hcancelled hin))
    · obtain ⟨j, hj⟩ := List.mem_iff_getElem?.mp hold
      by_cases hij : j = i
      · subst hij
        rw [hi] at hj
        cases hj
        rcases howes e w hw hpassed hold' with hin | ⟨op', hop, hop'⟩
        · exact Or.inr (Or.inl hin)
        · exact Or.inr (Or.inr ⟨op', List.mem_append_right _ (Option.mem_toList.mpr hop), hop'⟩)
      · exact Or.inr (Or.inr ⟨old, List.mem_append_left _ (List.mem_eraseIdx_iff_getElem?.mpr ⟨j, hij, hj⟩), hold'⟩)

/-- A section on one task writes no other. -/
theorem hasActive_write_of_ne {m' : Manager} {g : Gid} {edit : DownloadTask → Option DownloadTask}
    (ha : a.apply R m.list.tasks = editTask g edit m.list.tasks) (hs : m.write R a = some m') (hne : g ≠ gid)
    (hactive : hasActive m.list.tasks gid = true) : hasActive m'.list.tasks gid = true := by
  rcases Manager.write_tasks hs with hsame | happly
  · rw [hsame]
    exact hactive
  · rw [ha] at happly
    exact hasActive_editTask_of_ne happly hne hactive

/-- A section that writes one task, and a call that owes the token if the section has written. -/
theorem Ok.stops (h : Ok maxConcurrent s) {g : Gid} {edit : DownloadTask → Option DownloadTask} {op : Option Op}
    (ha : a.apply R s.manager.list.tasks = editTask g edit s.manager.list.tasks) (hworkers : a.isWorkers = false)
    (hs : s.manager.write R a = some m) (hfound : ∀ stopping gid e, op ≠ some (.write stopping gid (some e)))
    (howes : hasActive s.manager.list.tasks g = true → (a.apply R s.manager.list.tasks).isSome = true → ∃ op' ∈ op, ∀ e, op'.Owes g e) :
    Ok maxConcurrent ⟨m, s.ops ++ op.toList⟩ := by
  have hm := h.manager.write hworkers hs
  obtain ⟨-, hmanager⟩ := Manager.write_some hs
  refine h.begun hm (by rw [hmanager]) (by rw [hmanager]) hfound fun gid e hactive => ?_
  by_cases hgid : g = gid
  · subst hgid
    rcases Manager.write_tasks hs with hsame | happly
    · rw [hsame]
      exact Or.inl hactive
    · obtain ⟨op', hop, howes⟩ := howes hactive (by rw [happly]; rfl)
      exact Or.inr ⟨op', hop, howes e⟩
  · exact Or.inl (hasActive_write_of_ne ha hs hgid hactive)

theorem Ok.call (h : Ok maxConcurrent s) {c : Call} {r : Manager × Option Op} (hs : c.begin R s.manager = some r) :
    Ok maxConcurrent ⟨r.1, s.ops ++ r.2.toList⟩ := by
  cases c with
  | pause gid | remove gid =>
    cases hs
    exact h.begun h.manager rfl rfl nofun fun _ _ hactive => Or.inl hactive
  | pauseAll =>
    obtain ⟨m, hwrite, rfl⟩ := Option.map_eq_some_iff.mp hs
    have hm := h.manager.write rfl hwrite
    obtain ⟨-, hmanager⟩ := Manager.write_some hwrite
    refine h.begun hm (by rw [hmanager]) (by rw [hmanager]) nofun fun gid e hactive => Or.inr ⟨_, rfl, ?_⟩
    obtain ⟨t, ht, hgid, hstatus⟩ := hasActive_iff.mp hactive
    exact List.mem_map.mpr ⟨t, List.mem_filter.mpr ⟨ht, beq_iff_eq.mpr hstatus⟩, hgid⟩
  | preempt gid =>
    obtain ⟨m, hwrite, rfl⟩ := Option.map_eq_some_iff.mp hs
    refine h.stops (g := gid) rfl rfl hwrite ?_ fun _ hsome => ⟨.cancelActive gid true, ?_, fun _ => ⟨rfl, rfl⟩⟩
    · split <;> nofun
    · exact if_pos hsome
  | setTaskSchedule gid startAt =>
    obtain ⟨m, hwrite, rfl⟩ := Option.map_eq_some_iff.mp hs
    refine h.stops (g := gid) rfl rfl hwrite ?_ fun hactive hsome => ⟨.cancelActive gid (hasActive s.manager.list.tasks gid), ?_,
        fun _ => ⟨hactive, rfl⟩⟩
    · split <;> nofun
    · exact if_pos hsome
  | retryWithCookies gid cookie userAgent =>
    obtain ⟨m, hwrite, rfl⟩ := Option.map_eq_some_iff.mp hs
    refine h.stops (g := gid) rfl rfl hwrite ?_ fun hactive hsome => ⟨.cancelActive gid true, ?_, fun _ => ⟨rfl, rfl⟩⟩
    · split <;> nofun
    · exact if_pos (Bool.and_eq_true_iff.mpr ⟨hsome, hasActive_found h.manager.distinct hactive⟩)
  | updateTask gid patch privateTorrent =>
    simp only [Call.begin] at hs
    split at hs
    · rename_i hstaged
      obtain ⟨m, hwrite, rfl⟩ := Option.map_eq_some_iff.mp hs
      have hm := h.manager.write rfl hwrite
      obtain ⟨-, hmanager⟩ := Manager.write_some hwrite
      refine h.begun hm (by rw [hmanager]) (by rw [hmanager]) nofun fun gid' e hactive => Or.inl ?_
      rcases Manager.write_tasks hwrite with hsame | happly
      · rw [hsame]
        exact hactive
      · exact hasActive_updateTask hstaged happly hactive
    · rename_i staged hstaged
      obtain ⟨m, hwrite, rfl⟩ := Option.map_eq_some_iff.mp hs
      have hok : Ok maxConcurrent ⟨m, s.ops ++ (some (Op.updateLookStarting staged)).toList⟩ :=
        h.stops (g := gid) rfl rfl hwrite nofun fun _ _ => ⟨_, rfl, fun _ => gid_stagedCopy hstaged⟩
      exact ⟨hok.manager.setUpdating _, hok.found, hok.covered⟩
  | single a =>
    simp only [Call.begin, Option.ite_none_right_eq_some] at hs
    obtain ⟨hsingle, hs⟩ := hs
    obtain ⟨m, hwrite, rfl⟩ := Option.map_eq_some_iff.mp hs
    have hworkers : a.isWorkers = false := by
      cases a <;> first | rfl | cases hsingle
    have hm := h.manager.write hworkers hwrite
    obtain ⟨-, hmanager⟩ := Manager.write_some hwrite
    refine h.begun hm (by rw [hmanager]) (by rw [hmanager]) nofun fun gid' e hactive => Or.inl ?_
    rcases Manager.write_tasks hwrite with hsame | happly
    · rw [hsame]
      exact hactive
    · exact hasActive_single hsingle happly hactive

theorem Stage.inActive_of_passed {stage : Stage} (h : stage.passed = true) : stage.inActive = true ∧ stage.inStarting = false := by
  cases stage <;> first | exact ⟨rfl, rfl⟩ | cases h

/-- A worker that has passed its check is in `active_downloads`. -/
theorem Ok.get_active (h : Ok maxConcurrent s) {w : Worker} (hw : s.manager.workers e = some w) (hpassed : w.stage.passed = true) :
    s.manager.active.get? w.gid = some e := h.manager.get_active hw (Stage.inActive_of_passed hpassed).1

/-- Such a worker is the only one of its gid, so none is in `starting_workers`. -/
theorem Ok.get_starting (h : Ok maxConcurrent s) {w : Worker} (hw : s.manager.workers e = some w) (hpassed : w.stage.passed = true) :
    s.manager.starting.get? w.gid = none := by
  by_contra hsome
  obtain ⟨e', he'⟩ := Option.ne_none_iff_exists'.mp hsome
  obtain ⟨w', hw', hgid, hin⟩ := (h.manager.starting w.gid e').mp he'
  have heq := h.manager.one e' e w' w hw' hw hgid
  subst heq
  rw [hw] at hw'
  cases hw'
  rw [(Stage.inActive_of_passed hpassed).2] at hin
  cases hin

/-- A call that goes on without the lock of the list. -/
theorem Ok.goesOn (h : Ok maxConcurrent s) (hi : s.ops[i]? = some op)
    (hfound : ∀ stopping gid e, next ≠ some (.write stopping gid (some e)))
    (howes : ∀ e w, s.manager.workers e = some w → w.stage.passed = true → op.Owes w.gid e →
      e ∈ s.manager.cancelled ∨ ∃ op' ∈ next, op'.Owes w.gid e) :
    Ok maxConcurrent ⟨s.manager, s.ops.eraseIdx i ++ next.toList⟩ :=
  h.advanced hi h.manager rfl subset_rfl (fun stopping gid e hnext => absurd hnext (hfound stopping gid e)) (fun _ _ _ _ hactive => Or.inl hactive) howes

/-- A call that cancels a token. -/
theorem Ok.cancels (h : Ok maxConcurrent s) (hi : s.ops[i]? = some op)
    (hfound : ∀ stopping gid e', next = some (.write stopping gid (some e')) → e' = e)
    (howes : ∀ e' w, s.manager.workers e' = some w → w.stage.passed = true → op.Owes w.gid e' →
      e' = e ∨ ∃ op' ∈ next, op'.Owes w.gid e') :
    Ok maxConcurrent ⟨s.manager.cancel e, s.ops.eraseIdx i ++ next.toList⟩ := by
  have hin : e ∈ (s.manager.cancel e).cancelled := Finset.mem_insert_self e s.manager.cancelled
  refine h.advanced hi (h.manager.cancel e) rfl (Finset.subset_insert e s.manager.cancelled) ?_ (fun _ _ _ _ hactive => Or.inl hactive) ?_
  · intro stopping gid e' hnext
    rw [hfound stopping gid e' hnext]
    exact hin
  · intro e' w hw hpassed hop
    rcases howes e' w hw hpassed hop with rfl | hnext
    · exact Or.inl hin
    · exact Or.inr hnext

/-- A call that writes and is done: nothing that it owed is left. -/
theorem Ok.writes (h : Ok maxConcurrent s) (hi : s.ops[i]? = some op) (hop : ∀ gid e, ¬ op.Owes gid e)
    (hworkers : a.isWorkers = false) (hs : s.manager.write R a = some m)
    (hactive : ∀ e w, s.manager.workers e = some w → w.stage.passed = true → hasActive s.manager.list.tasks w.gid = true →
      hasActive m.list.tasks w.gid = true ∨ e ∈ s.manager.cancelled) :
    Ok maxConcurrent ⟨m, s.ops.eraseIdx i⟩ := by
  have hm := h.manager.write hworkers hs
  obtain ⟨-, hmanager⟩ := Manager.write_some hs
  have hcancelled : m.cancelled = s.manager.cancelled := by
    rw [hmanager]
  have hok : Ok maxConcurrent ⟨m, s.ops.eraseIdx i ++ (none : Option Op).toList⟩ := by
    refine h.advanced hi hm (by rw [hmanager]) hcancelled.ge nofun (fun e w hw hpassed hwas => ?_) fun e w _ _ howes => absurd howes (hop w.gid e)
    rw [hcancelled]
    exact hactive e w hw hpassed hwas
  rwa [Option.toList_none, List.append_nil] at hok

/-- The section of a `pause` or a `remove` writes one task. -/
theorem apply_stopping (stopping : Stopping) (gid : Gid) :
    ∃ edit, (stopping.section gid).isWorkers = false ∧ ∀ tasks, (stopping.section gid).apply R tasks = editTask gid edit tasks := by
  cases stopping with
  | pause => exact ⟨_, rfl, fun _ => rfl⟩
  | remove => exact ⟨_, rfl, fun _ => rfl⟩

theorem Ok.advance (h : Ok maxConcurrent s) {exited : Bool} (htime : s.writesTooLate (.advance i exited) = false)
    (hi : s.ops[i]? = some op) {r : Manager × Option Op} (hs : op.advance R s.manager exited = some r) :
    Ok maxConcurrent ⟨r.1, s.ops.eraseIdx i ++ r.2.toList⟩ := by
  cases op with
  | lookStarting stopping gid | lookActive stopping gid =>
    simp only [Op.advance] at hs
    split at hs
    · cases hs
      exact h.goesOn hi nofun nofun
    · cases hs
      exact h.goesOn hi nofun nofun
  | cancel stopping gid e =>
    cases hs
    refine h.cancels hi (fun stopping' gid' e' hnext => ?_) nofun
    cases hnext
    rfl
  | write stopping gid found =>
    obtain ⟨m, hwrite, rfl⟩ := Option.map_eq_some_iff.mp hs
    obtain ⟨edit, hworkers, happly⟩ := apply_stopping (R := R) stopping gid
    rw [Option.toList_none, List.append_nil]
    refine h.writes hi (fun _ _ => id) hworkers hwrite fun e w hw hpassed hactive => ?_
    by_cases hgid : gid = w.gid
    · -- The call has found the worker of an Active task, and cancelled its token.
      right
      subst hgid
      simp only [writesTooLate, hi, hactive, h.get_active hw hpassed, hw, hpassed, Option.any_some, Bool.true_and, decide_eq_false_iff_not,
        not_not] at htime
      subst htime
      exact h.found stopping w.gid e (List.mem_of_getElem? hi)
    · exact Or.inl (hasActive_write_of_ne (happly _) hwrite hgid hactive)
  | cancelActive gid took =>
    simp only [Op.advance] at hs
    split at hs
    · rename_i e he
      cases hs
      refine h.cancels hi nofun fun e' w hw hpassed howes => Or.inl ?_
      obtain ⟨-, rfl⟩ := howes
      exact Option.some.inj ((h.get_active hw hpassed).symm.trans he)
    · rename_i hnone
      cases hs
      refine h.goesOn hi nofun fun e' w hw hpassed howes => ?_
      obtain ⟨-, rfl⟩ := howes
      cases (h.get_active hw hpassed).symm.trans hnone
  | lookAllActive took =>
    cases hs
    exact h.goesOn hi nofun fun e w hw hpassed howes => Or.inr ⟨_, rfl, howes, Manager.mem_tokens (h.get_active hw hpassed)⟩
  | cancelAllActive took tokens =>
    cases tokens with
    | nil =>
      cases hs
      exact h.goesOn hi nofun fun e w _ _ howes => absurd howes.2 List.not_mem_nil
    | cons e rest =>
      cases hs
      refine h.cancels hi nofun fun e' w _ _ howes => ?_
      rcases List.mem_cons.mp howes.2 with heq | hrest
      · exact Or.inl heq
      · exact Or.inr ⟨_, rfl, howes.1, hrest⟩
  | lookAllStarting =>
    cases hs
    exact h.goesOn hi nofun nofun
  | cancelAllStarting tokens =>
    cases tokens with
    | nil =>
      cases hs
      exact h.goesOn hi nofun nofun
    | cons e rest =>
      cases hs
      exact h.cancels hi nofun nofun
  | updateLookStarting staged =>
    simp only [Op.advance] at hs
    split at hs
    · rename_i e he
      cases hs
      refine h.goesOn hi nofun fun e' w hw hpassed howes => ?_
      have hgid : staged.gid = w.gid := howes
      rw [hgid, h.get_starting hw hpassed] at he
      cases he
    · cases hs
      exact h.goesOn hi nofun fun e' w _ _ howes => Or.inr ⟨_, rfl, howes⟩
  | updateLookActive staged =>
    simp only [Op.advance] at hs
    split at hs
    · rename_i e he
      cases hs
      refine h.goesOn hi nofun fun e' w hw hpassed howes => Or.inr ⟨_, rfl, howes, ?_⟩
      have hgid : staged.gid = w.gid := howes
      rw [hgid, h.get_active hw hpassed] at he
      exact (Option.some.inj he).symm
    · rename_i hnone
      cases hs
      refine h.goesOn hi nofun fun e' w hw hpassed howes => ?_
      have hgid : staged.gid = w.gid := howes
      rw [hgid, h.get_active hw hpassed] at hnone
      cases hnone
  | updateCancel staged e =>
    cases hs
    exact h.cancels hi nofun fun e' w _ _ howes => Or.inl howes.2.symm
  | updateWait staged =>
    cases hs
    refine h.goesOn hi (fun stopping gid e => ?_) nofun
    split <;> nofun
  | updateWrite staged =>
    obtain ⟨m, hwrite, rfl⟩ := Option.map_eq_some_iff.mp hs
    have hok := h.writes hi (fun _ _ => id) rfl hwrite fun e w _ _ hactive => Or.inl <| by
      rcases Manager.write_tasks hwrite with hsame | happly
      · rw [hsame]
        exact hactive
      · exact hasActive_writeBack happly hactive
    rw [Option.toList_none, List.append_nil]
    exact ⟨hok.manager.setUpdating _, hok.found, hok.covered⟩
  | updateGiveUp staged =>
    obtain ⟨m, hwrite, rfl⟩ := Option.map_eq_some_iff.mp hs
    have hok := h.writes hi (fun _ _ => id) rfl hwrite fun e w _ _ hactive => Or.inl <| by
      rcases Manager.write_tasks hwrite with hsame | happly
      · rw [hsame]
        exact hactive
      · exact hasActive_revertRestart happly hactive
    rw [Option.toList_none, List.append_nil]
    exact ⟨hok.manager.setUpdating _, hok.found, hok.covered⟩

/-! ## Runs -/

/-- Every step keeps it, if no `pause` and no `remove` writes too late. -/
theorem Ok.step (h : Ok maxConcurrent s) {a : Action} (htime : s.writesTooLate a = false) (hs : s.step R maxConcurrent a = some s') :
    Ok maxConcurrent s' := by
  cases a with
  | call c =>
    obtain ⟨r, hr, rfl⟩ := Option.map_eq_some_iff.mp hs
    exact h.call hr
  | advance i exited =>
    obtain ⟨op, hi, hs⟩ := Option.bind_eq_some_iff.mp hs
    obtain ⟨r, hr, rfl⟩ := Option.map_eq_some_iff.mp hs
    exact h.advance htime hi hr
  | starter a =>
    obtain ⟨m, hm, rfl⟩ := Option.map_eq_some_iff.mp hs
    exact h.carried (h.manager.starterStep hm) (Manager.carried_starter hm)
  | worker e a =>
    obtain ⟨m, hm, rfl⟩ := Option.map_eq_some_iff.mp hs
    obtain ⟨w, hw, hm⟩ := Option.bind_eq_some_iff.mp hm
    exact h.carried (h.manager.workerStep hw hm) (h.manager.carried_worker hw hm)

/-- So it holds in every run without such writes. -/
theorem ReachableInTime.ok (h : s.ReachableInTime R maxConcurrent) : Ok maxConcurrent s := by
  refine Reach.invariant (fun s hs => ?_) (fun s s' hinv hs => ?_) h
  · obtain ⟨tasks, epoch, hnodup, rfl⟩ := hs
    exact ok_start hnodup epoch
  · obtain ⟨a, htime, hs⟩ := hs
    exact hinv.step htime hs

end Calls

end Engine

end Risuko
