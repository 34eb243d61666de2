import Risuko.Lemmas.Relocate
import Risuko.Lemmas.Reconcile
import Risuko.Lemmas.Restart
import Risuko.Lemmas.Session
import Risuko.Lib.Lists

/-!
# The engine

What the task manager keeps over restarts and removals.
-/

namespace Risuko

/-!
## When the active set comes to rest

Preempting ranks every Active or Waiting task, and starting passes over tasks that cannot start. If both do not speak of the same tasks, one is
stopped and started again on every call.
-/

namespace Engine

namespace ActiveSet

variable (s : ActiveSet) (maxConcurrent : ℕ) (updating : Gid → Bool) (exited : ℕ → Gid → Bool)

/-- The first Active or Waiting tasks can all start, or no other can; and those of them that are Active could. -/
def Agrees : Prop :=
  ((∀ task ∈ (s.tasks.filter (·.isQueued)).take maxConcurrent, task.startable updating = true) ∨
      ∀ task ∈ (s.tasks.filter (·.isQueued)).drop maxConcurrent, task.startable updating = false) ∧
    ∀ task ∈ (s.tasks.filter (·.isQueued)).take maxConcurrent, task.status = .active → task.startable updating = true

def ranking : Ranking Gid where
  queue := (s.tasks.filter (·.isQueued)).map (·.gid)
  able gid := s.tasks.any fun t => t.gid == gid && t.startable updating
  nodup := s.distinct.sublist (List.filter_sublist.map _)

/-- The ranking describes the list that it is taken from. -/
theorem describes_ranking : Describes (s.ranking updating) updating s.tasks := by
  refine ⟨s.distinct, rfl, ?_⟩
  intro task ht
  rw [Bool.eq_iff_iff]
  constructor
  · intro h
    obtain ⟨other, hother, hboth⟩ := List.any_eq_true.mp h
    obtain ⟨hgid, hstartable⟩ := Bool.and_eq_true_iff.mp hboth
    rwa [← List.inj_on_of_nodup_map s.distinct hother ht (beq_iff_eq.mp hgid)]
  · intro h
    exact List.any_eq_true.mpr ⟨task, ht, by simp [h]⟩

/-- It still describes the list before every later call. -/
theorem describes_before (k : ℕ) : Describes (s.ranking updating) updating (s.before maxConcurrent updating exited k).1 := by
  induction k with
  | zero => exact s.describes_ranking updating
  | succ k ih => exact (round_reconcile ih (exited k) (s.before maxConcurrent updating exited k).2).1

/-- A call is a round of the ranking. -/
theorem round_call (k : ℕ) :
    (s.ranking updating).Round maxConcurrent (activeGids (s.before maxConcurrent updating exited k).1) (s.call maxConcurrent updating exited k).busy
      (activeGids (s.before maxConcurrent updating exited (k + 1)).1) :=
  (round_reconcile (s.describes_before maxConcurrent updating exited k) (exited k) _).2.2

/-- From the second call on, the busy tasks are those that were Active before it. -/
theorem busy_call {k : ℕ} (hk : 0 < k) :
    ∀ gid ∈ (s.call maxConcurrent updating exited k).busy, gid ∈ activeGids (s.before maxConcurrent updating exited k).1 := by
  intro gid hgid
  have hdescribes := s.describes_before maxConcurrent updating exited k
  obtain ⟨j, rfl⟩ := Nat.exists_eq_add_of_le' hk
  unfold call reconcile at hgid
  dsimp only at hgid
  rw [foldl_preempt_toPreempt hdescribes] at hgid
  rcases List.mem_append.mp (List.mem_dedup.mp hgid) with hleft | hlingering
  · exact ((mem_activeGids_preempted hdescribes maxConcurrent gid).mp hleft).1
  · have hpreempted := (List.mem_filter.mp hlingering).1
    exact ((mem_toPreempt hdescribes).mp (by simpa [before] using hpreempted)).1

/-- The task that the loop starts is the first startable one of the ranking. -/
theorem firstStartable_eq {r : Ranking Gid} {tasks : List DownloadTask} (h : Describes r updating tasks) :
    firstStartable maxConcurrent updating tasks = r.first maxConcurrent := by
  unfold firstStartable Ranking.first
  rw [h.queue, List.filter_map, List.map_take]
  congr 2
  refine List.filter_congr ?_
  intro task ht
  exact (h.able task (List.mem_filter.mp ht).1).symm

/-- A call at rest, of the ranking. -/
theorem settled_iff (k : ℕ) :
    ((s.call maxConcurrent updating exited k).preempted = [] ∧ (s.call maxConcurrent updating exited k).started = [] ∧
        activeGids (s.before maxConcurrent updating exited k).1 = firstStartable maxConcurrent updating (s.before maxConcurrent updating exited k).1) ↔
      (s.ranking updating).Settled maxConcurrent (activeGids (s.before maxConcurrent updating exited k).1)
        (s.call maxConcurrent updating exited k).busy := by
  have hdescribes := s.describes_before maxConcurrent updating exited k
  have hstarted : (s.call maxConcurrent updating exited k).started =
      (s.ranking updating).starts maxConcurrent (s.call maxConcurrent updating exited k).busy :=
    (round_reconcile hdescribes (exited k) _).2.1
  have hpreempted : (s.call maxConcurrent updating exited k).preempted = toPreempt maxConcurrent 0 (s.before maxConcurrent updating exited k).1 := rfl
  rw [firstStartable_eq maxConcurrent updating hdescribes, hpreempted]
  constructor
  · rintro ⟨hnone, hstart, hfirst⟩
    refine ⟨?_, hstarted.symm.trans hstart, hfirst⟩
    intro gid hgid
    by_contra hranked
    have hmem : gid ∈ toPreempt maxConcurrent 0 (s.before maxConcurrent updating exited k).1 := (mem_toPreempt hdescribes).mpr ⟨hgid, hranked⟩
    rw [hnone] at hmem
    cases hmem
  · intro h
    refine ⟨?_, hstarted.trans h.starts, h.first⟩
    refine List.eq_nil_iff_forall_not_mem.mpr ?_
    intro gid hgid
    obtain ⟨hrunning, hranked⟩ := (mem_toPreempt hdescribes).mp hgid
    exact hranked (h.keeps gid hrunning)

/-- The condition on the list is one on its ranking. -/
theorem agrees_iff :
    s.Agrees maxConcurrent updating ↔
      (s.ranking updating).Agrees maxConcurrent ∧
        ∀ gid ∈ activeGids s.tasks, gid ∈ (s.ranking updating).queue.take maxConcurrent → (s.ranking updating).able gid = true := by
  have hable := (s.describes_ranking updating).able
  have htake : (s.ranking updating).queue.take maxConcurrent = ((s.tasks.filter (·.isQueued)).take maxConcurrent).map (·.gid) := List.map_take.symm
  have hdrop : (s.ranking updating).queue.drop maxConcurrent = ((s.tasks.filter (·.isQueued)).drop maxConcurrent).map (·.gid) := List.map_drop.symm
  have hfront : ∀ task ∈ (s.tasks.filter (·.isQueued)).take maxConcurrent, task ∈ s.tasks :=
    fun task ht => (List.mem_filter.mp (List.mem_of_mem_take ht)).1
  have hback : ∀ task ∈ (s.tasks.filter (·.isQueued)).drop maxConcurrent, task ∈ s.tasks :=
    fun task ht => (List.mem_filter.mp (List.mem_of_mem_drop ht)).1
  unfold Agrees Ranking.Agrees
  rw [htake, hdrop, List.forall_mem_map, List.forall_mem_map]
  refine and_congr (or_congr ?_ ?_) ?_
  · exact forall₂_congr fun task ht => by rw [hable task (hfront task ht)]
  · exact forall₂_congr fun task ht => by rw [hable task (hback task ht)]
  · constructor
    · intro h gid hgid hmem
      obtain ⟨task, ht, rfl⟩ := List.mem_map.mp hmem
      rw [hable task (hfront task ht)]
      exact h task ht (queued_of_mem_activeGids (s.describes_ranking updating) (hfront task ht) hgid).2
    · intro h task ht hactive
      rw [← hable task (hfront task ht)]
      have hqueued := (List.mem_filter.mp (List.mem_of_mem_take ht)).2
      refine h task.gid (mem_activeGids.mpr ⟨task, hfront task ht, rfl, ?_, hactive⟩) (List.mem_map_of_mem ht)
      intro hk
      simp [DownloadTask.isQueued, hk] at hqueued

/-- The calls come to rest, with the first startable tasks Active, if and only if ranking and starting speak of the same tasks. -/
theorem reconcile_settles :
    (∃ n, ∀ k, n ≤ k →
        (s.call maxConcurrent updating exited k).preempted = [] ∧ (s.call maxConcurrent updating exited k).started = [] ∧
          activeGids (s.before maxConcurrent updating exited k).1 =
            firstStartable maxConcurrent updating (s.before maxConcurrent updating exited k).1) ↔
      s.Agrees maxConcurrent updating := by
  rw [agrees_iff]
  refine Iff.trans ?_ (Ranking.settles (s.round_call maxConcurrent updating exited) fun k hk => s.busy_call maxConcurrent updating exited hk)
  exact exists_congr fun n => forall₂_congr fun k _ => s.settled_iff maxConcurrent updating exited k

/-- A download without an address before one that could start. -/
def blocked : ActiveSet where
  tasks := [.newHttp 0 [] [] Options.empty, .newHttp 1 [['u']] [] Options.empty]
  distinct := by decide
  lingering := []

/-- With one slot, the second download is started and preempted in turn. -/
theorem blocked_restarts : ¬ ∃ n, ∀ k, n ≤ k →
    (blocked.call 1 (fun _ => false) (fun _ _ => false) k).preempted = [] ∧ (blocked.call 1 (fun _ => false) (fun _ _ => false) k).started = [] ∧
      activeGids (blocked.before 1 (fun _ => false) (fun _ _ => false) k).1 =
        firstStartable 1 (fun _ => false) (blocked.before 1 (fun _ => false) (fun _ _ => false) k).1 := by
  rintro ⟨n, hn⟩
  have hsettled := (blocked.settled_iff 1 (fun _ => false) (fun _ _ => false) n).mp (hn n (Nat.le_refl n))
  have hfirst : (1 : Gid) ∈ (blocked.ranking fun _ => false).first 1 := by decide
  have hranked := hsettled.keeps 1 (hsettled.first ▸ hfirst)
  revert hranked
  decide

end ActiveSet

end Engine

/-!
## Removed tasks

An entry that is Removed stays so until it is dropped, if no section revives it.
-/

namespace Engine

namespace TaskList

variable {R : OptionReader} {s s' : TaskList}

/-- No two tasks of a reachable list have one gid. -/
theorem Reachable.distinct (h : Reachable R s) : Distinct s := by
  refine Reach.invariant (fun s hs => ?_) (fun s s' hinv hs => ?_) h
  · obtain ⟨tasks, hnodup, rfl⟩ := hs
    exact distinct_start hnodup
  · obtain ⟨a, hs⟩ := hs
    exact hinv.step hs

/-- There is no entry with this gid but a Removed one, and no entry can get it. -/
structure Gone (gid : Gid) (s : TaskList) : Prop where
  used : gid ∈ s.used
  removed : ∀ task ∈ s.tasks, task.gid = gid → task.status = .removed

/-- A section that revives nothing leaves a removed task removed or drops it. -/
theorem Gone.step {gid : Gid} {a : Section} (h : Gone gid s) (hq : a.revives R s.tasks = false) (hs : step R s a = some s') : Gone gid s' := by
  obtain ⟨hnew, happly, hused⟩ := step_cases hs
  refine ⟨by rw [hused]; exact List.mem_append_right _ h.used, ?_⟩
  intro task' ht' hgid
  rcases Section.apply_cases happly with ⟨_, hedits⟩ | ⟨task, hsome, hlist⟩ | ⟨_, hsub⟩
  · obtain ⟨task, ht, hedit⟩ := exists_of_forall₂ hedits ht'
    exact hedit.removed hq (h.removed task ht (hedit.gid.symm.trans hgid))
  · rw [hlist] at ht'
    rcases List.mem_append.mp ht' with hold | hlast
    · exact h.removed task' hold hgid
    · rw [List.mem_singleton.mp hlast] at hgid
      exact absurd h.used (hgid ▸ hnew _ hsome)
  · exact h.removed task' (hsub.subset ht') hgid

/-- A removed task is gone, since its gid is its own. -/
theorem gone_of_removed {task : DownloadTask} (h : Distinct s) (ht : task ∈ s.tasks) (hr : task.status = .removed) : Gone task.gid s := by
  refine ⟨h.used task ht, ?_⟩
  intro task' ht' hgid
  rw [List.inj_on_of_nodup_map h.nodup ht' ht hgid]
  exact hr

/-- A Removed task stays Removed as long as it is in the list, in any run in which no section revives a task: it is not started, does not complete, and
is no more among the tasks that are saved. -/
theorem removed_stays {task task' : DownloadTask} (h : Reachable R s) (ht : task ∈ s.tasks) (hr : task.status = .removed)
    (hs : Reach (· = s) (fun s s' => ∃ a : Section, a.revives R s.tasks = false ∧ step R s a = some s') s') (ht' : task' ∈ s'.tasks)
    (hg : task'.gid = task.gid) : task'.status = .removed ∧ task' ∉ savedTasks s'.tasks := by
  have hgone : Gone task.gid s' := by
    refine Reach.invariant (fun s' hs' => ?_) (fun s s' hinv hs => ?_) hs
    · subst hs'
      exact gone_of_removed h.distinct ht hr
    · obtain ⟨a, hq, hstep⟩ := hs
      exact hinv.step hq hstep
  have hremoved := hgone.removed task' ht' hg
  refine ⟨hremoved, ?_⟩
  intro hsaved
  simpa [hremoved] using (List.mem_filter.mp hsaved).2

/-- Values that no option makes use of. -/
def blankReader : OptionReader where
  seedTime _ := 0
  ratioStops _ := none
  sanitizeFilename := id
  trim := id
  splitTrackerList _ := []
  joinTrackers _ := []
  supportedUri _ := true
  requestsPause _ := false
  requestedStart _ := none

/-- A download of one address that is added, and removed. -/
def removedDownload : List Section := [.enqueue 0 (.newHttp 0 [['u']] [] Options.empty), .remove 0]

def removedTask : DownloadTask := { DownloadTask.newHttp 0 [['u']] [] Options.empty with status := .removed }

theorem reachable_removedTask : Reachable blankReader ⟨[removedTask], [0]⟩ :=
  Reach.runActions (L := removedDownload) (s := start []) rfl (.init ⟨[], List.nodup_nil, rfl⟩)

/-- Pausing the removed task fails, and `unpause_all` leaves it alone. -/
theorem removed_stays_unpaused : removedTask.status = .removed ∧ removedTask ∉ savedTasks [removedTask] :=
  @removed_stays blankReader ⟨[removedTask], [0]⟩ ⟨[removedTask], [0]⟩ _ _ reachable_removedTask (List.mem_singleton_self _) rfl
    (.step (.init rfl) ⟨.unpauseAll [], rfl, rfl⟩) (List.mem_singleton_self _) rfl

/-- `retry_with_cookies` takes a Removed task for one that may start again. -/
theorem revived_by_retry : ¬ ∀ (s s' : TaskList) (task task' : DownloadTask), Reachable blankReader s → task ∈ s.tasks → task.status = .removed →
    Reach (· = s) (fun s s' => ∃ a : Section, step blankReader s a = some s') s' → task' ∈ s'.tasks → task'.gid = task.gid →
      task'.status = .removed := by
  intro hstays
  have hwaiting := hstays _ ⟨[{ removedTask with status := .waiting }], [0]⟩ removedTask { removedTask with status := .waiting } reachable_removedTask
    (List.mem_singleton_self _) rfl (.step (.init rfl) ⟨.retryWithCookies 0 none none, rfl⟩) (List.mem_singleton_self _) rfl
  cases hwaiting

end TaskList

end Engine

/-!
## Edits that are not lost

If no other call edits a task between the staging and the write-back of an `update_task`, the copy is what the patch makes of the task as it then is.
So the tasks are what the calls make of them one after the other (`edits_kept`).
-/

namespace Engine

variable {R : OptionReader} {tasks tasks' : List DownloadTask}

/-- An edit is made of the first task that is looked for. -/
theorem find?_of_editFirst {p : DownloadTask → Bool} {edit : DownloadTask → Option DownloadTask} (h : editFirst p edit tasks = some tasks') :
    ∃ task task', tasks.find? p = some task ∧ edit task = some task' := by
  induction tasks generalizing tasks' with
  | nil => cases h
  | cons first rest ih =>
    unfold editFirst at h
    by_cases hp : p first
    · rw [if_pos hp] at h
      obtain ⟨edited, hedit, _⟩ := Option.map_eq_some_iff.mp h
      exact ⟨first, edited, List.find?_cons_of_pos hp, hedit⟩
    · rw [if_neg hp] at h
      obtain ⟨edited, hedit, _⟩ := Option.map_eq_some_iff.mp h
      obtain ⟨task, task', hfind, he⟩ := ih hedit
      exact ⟨task, task', by rw [List.find?_cons_of_neg hp, hfind], he⟩

/-- Only what an edit does to the first task that is looked for matters. -/
theorem editFirst_congr {p : DownloadTask → Bool} {edit edit' : DownloadTask → Option DownloadTask}
    (h : ∀ task, tasks.find? p = some task → edit task = edit' task) : editFirst p edit tasks = editFirst p edit' tasks := by
  induction tasks with
  | nil => rfl
  | cons first rest ih =>
    unfold editFirst
    by_cases hp : p first
    · rw [if_pos hp, if_pos hp, h first (List.find?_cons_of_pos hp)]
    · rw [if_neg hp, if_neg hp, ih fun task hfind => h task (by rw [List.find?_cons_of_neg hp, hfind])]

namespace Restarts

variable {s s' : Restarts}

/-- Whether an action leaves the tasks alone that wait for their workers: no call edits one of them. -/
def undisturbed (s : Restarts) : Action → Bool
  | .run a => a.edits.all fun gid => !s.pending.any (·.gid == gid)
  | .updateTask gid _ _ => !s.pending.any (·.gid == gid)
  | _ => true

structure Coherent (R : OptionReader) (first : List DownloadTask) (s : Restarts) : Prop where
  distinct : (s.tasks.map (·.gid)).Nodup
  used : ∀ task ∈ s.tasks, task.gid ∈ s.used
  known : ∀ call ∈ s.pending, call.gid ∈ s.used ∧ call.gid ∈ s.updating ∧ call.staged.gid = call.gid
  apart : (s.pending.map (·.gid)).Nodup
  staged : ∀ call ∈ s.pending, ∀ task ∈ s.tasks, task.gid = call.gid →
    Idle task ∧ ∃ status, call.staged = (applyTaskPatch R task call.patch).1.withStatus status
  timed : ∀ task ∈ s.tasks, Timed task
  log : runEdits R first s.log = s.tasks

variable {first : List DownloadTask}

theorem coherent_start (hn : (first.map (·.gid)).Nodup) (ht : ∀ task ∈ first, Timed task) : Coherent R first (start first) :=
  ⟨hn, fun _ h => List.mem_map_of_mem h, fun _ h => absurd h List.not_mem_nil, List.nodup_nil, fun _ h => absurd h List.not_mem_nil, ht, rfl⟩

/-- The last edit of a log is made of what the others leave. -/
theorem runEdits_snoc (log : List Edit) (edit : Edit) :
    runEdits R first (log ++ [edit]) = (edit.apply R (runEdits R first log)).getD (runEdits R first log) := by
  unfold runEdits
  rw [List.foldl_append]
  rfl

/-! ### A section of another operation -/

theorem not_pending {gid : Gid} {call : PendingUpdate} (h : (!s.pending.any (·.gid == gid)) = true) (hc : call ∈ s.pending) : gid ≠ call.gid := by
  rintro rfl
  simp only [Bool.not_eq_true', List.any_eq_false, beq_iff_eq] at h
  exact h call hc rfl

/-- A section that works on other tasks keeps the gids. -/
theorem gids_of_beside {a : Section} (h : List.Forall₂ a.Beside tasks tasks') : tasks'.map (·.gid) = tasks.map (·.gid) := by
  induction h with
  | nil => rfl
  | cons hbeside _ ih => rw [List.map_cons, List.map_cons, hbeside.gid, ih]

/-- A section that works on none of the tasks being updated keeps the log coherent. -/
theorem Coherent.beside {a : Section} {used : List Gid} {log : List Edit} (h : Coherent R first s) (he : List.Forall₂ a.Beside s.tasks tasks')
    (hq : s.undisturbed (.run a) = true) (hstarts : s.startsUpdating a = false) (hused : ∀ gid ∈ s.used, gid ∈ used)
    (hlog : runEdits R first log = tasks') : Coherent R first ⟨tasks', used, s.updating, s.pending, log⟩ := by
  refine ⟨by rw [gids_of_beside he]; exact h.distinct, ?_, fun call hc => ⟨hused _ (h.known call hc).1, (h.known call hc).2⟩, h.apart, ?_, ?_, hlog⟩
  · intro task' ht'
    obtain ⟨task, ht, hbeside⟩ := exists_of_forall₂ he ht'
    rw [hbeside.gid]
    exact hused _ (h.used task ht)
  · intro call hc task' ht' hgid
    obtain ⟨task, ht, hbeside⟩ := exists_of_forall₂ he ht'
    have hsame : task.gid = call.gid := hbeside.gid.symm.trans hgid
    obtain ⟨hidle, status, hstaged⟩ := h.staged call hc task ht hsame
    have hedit : a.edits ≠ some task.gid := by
      intro hedits
      simp only [undisturbed, hedits, Option.all_some] at hq
      exact not_pending hq hc hsame
    have hstart : ∀ gid, a = .start gid → gid ≠ task.gid := by
      rintro gid rfl rfl
      simp only [startsUpdating, hsame] at hstarts
      simp [(h.known call hc).2.1] at hstarts
    obtain ⟨hidle', status', rfl⟩ := hbeside.idle hedit hstart hidle
    exact ⟨hidle', status, by rw [hstaged, applyTaskPatch_status, withStatus_withStatus]⟩
  · intro task' ht'
    obtain ⟨task, ht, hbeside⟩ := exists_of_forall₂ he ht'
    exact hbeside.timed (h.timed task ht)

/-- A task with a new gid can be added beside pending updates. -/
theorem Coherent.added {task : DownloadTask} {log : List Edit} (h : Coherent R first s) (hfresh : task.gid ∉ s.used) (htimed : Timed task)
    (hlog : runEdits R first log = s.tasks ++ [task]) : Coherent R first ⟨s.tasks ++ [task], task.gid :: s.used, s.updating, s.pending, log⟩ := by
  refine ⟨?_, ?_, fun call hc => ⟨List.mem_cons_of_mem _ (h.known call hc).1, (h.known call hc).2⟩, h.apart, ?_, ?_, hlog⟩
  · rw [List.map_append]
    refine List.Nodup.append h.distinct (List.nodup_singleton _) ?_
    intro gid hgid hlast
    obtain ⟨old, hold, rfl⟩ := List.mem_map.mp hgid
    rw [List.map_singleton, List.mem_singleton] at hlast
    exact hfresh (hlast ▸ h.used old hold)
  · intro task' ht'
    rcases List.mem_append.mp ht' with hold | hlast
    · exact List.mem_cons_of_mem _ (h.used task' hold)
    · rw [List.mem_singleton.mp hlast]
      exact List.mem_cons_self
  · intro call hc task' ht' hgid
    rcases List.mem_append.mp ht' with hold | hlast
    · exact h.staged call hc task' hold hgid
    · rw [List.mem_singleton.mp hlast] at hgid
      exact absurd (hgid ▸ (h.known call hc).1) hfresh
  · intro task' ht'
    rcases List.mem_append.mp ht' with hold | hlast
    · exact h.timed task' hold
    · rw [List.mem_singleton.mp hlast]
      exact htimed

/-- Tasks can be dropped and moved beside pending updates. -/
theorem Coherent.dropped {used : List Gid} {log : List Edit} (h : Coherent R first s) (hsub : tasks'.Subperm s.tasks)
    (hused : ∀ gid ∈ s.used, gid ∈ used) (hlog : runEdits R first log = tasks') : Coherent R first ⟨tasks', used, s.updating, s.pending, log⟩ := by
  have hmem : ∀ task ∈ tasks', task ∈ s.tasks := fun task ht => hsub.subset ht
  refine ⟨?_, fun task ht => hused _ (h.used task (hmem task ht)), fun call hc => ⟨hused _ (h.known call hc).1, (h.known call hc).2⟩, h.apart,
    fun call hc task ht => h.staged call hc task (hmem task ht), fun task ht => h.timed task (hmem task ht), hlog⟩
  obtain ⟨kept, hperm, hsublist⟩ := hsub
  exact (hperm.map _).nodup_iff.mp ((hsublist.map (·.gid)).nodup h.distinct)

/-- A section of another call keeps the log coherent when it edits no task that is being updated. -/
theorem Coherent.run {a : Section} (h : Coherent R first s) (hq : s.undisturbed (.run a) = true) (hs : step R s (.run a) = some s') :
    Coherent R first s' := by
  unfold step at hs
  dsimp only at hs
  split at hs
  · cases hs
  · rename_i hallowed
    simp only [Bool.or_eq_true, not_or, Bool.not_eq_true] at hallowed
    obtain ⟨⟨hupdate, hstarts⟩, hnew⟩ := hallowed
    obtain ⟨tasks, happly, hstate⟩ := Option.map_eq_some_iff.mp hs
    have hlog : runEdits R first (s.log ++ [.ofSection a]) = tasks := by
      rw [runEdits_snoc, h.log, Edit.apply, happly]
      rfl
    have hused : ∀ gid ∈ s.used, gid ∈ a.newGid.toList ++ s.used := fun gid hgid => List.mem_append_right _ hgid
    rw [← hstate]
    rcases Section.beside_cases happly hupdate with hedits | ⟨task, hsome, htimed, htasks⟩ | hsub
    · exact h.beside hedits hq hstarts hused hlog
    · have hfresh : task.gid ∉ s.used := by
        intro hmem
        simp [hsome, hmem] at hnew
      rw [htasks] at hlog ⊢
      rw [hsome]
      exact h.added hfresh htimed hlog
    · exact h.dropped hsub hused hlog

/-! ### The sections of `update_task` -/

/-- An edit of the one task with this gid. -/
structure EditOf (edited : Gid) (task task' : DownloadTask) : Prop where
  gid : task'.gid = task.gid
  others : task.gid ≠ edited → task' = task
  timed : Timed task → Timed task'

theorem EditOf.refl (gid : Gid) (task : DownloadTask) : EditOf gid task task := ⟨rfl, fun _ => rfl, id⟩

/-- `edit_task` edits the one task with the gid. -/
theorem editOf_editTask {gid : Gid} {edit : DownloadTask → Option DownloadTask} (h : editTask gid edit tasks = some tasks')
    (hg : ∀ t t', t.gid = gid → edit t = some t' → t'.gid = gid) (ht : ∀ t t', t ∈ tasks → t.gid = gid → edit t = some t' → Timed t → Timed t') :
    List.Forall₂ (EditOf gid) tasks tasks' := by
  refine forall₂_editFirst (EditOf.refl gid) h ?_
  intro t t' hfind he
  obtain ⟨hmem, rfl⟩ := found_gid hfind
  exact ⟨hg t t' rfl he, fun hne => absurd rfl hne, ht t t' hmem rfl he⟩

/-- With different gids, the entry that an edit leaves is what it makes of the one that there was. -/
theorem mem_editTask {gid : Gid} {edit : DownloadTask → Option DownloadTask} {task' : DownloadTask} (h : editTask gid edit tasks = some tasks')
    (hn : (tasks.map (·.gid)).Nodup) (ht : task' ∈ tasks') (hgid : task'.gid = gid) : ∃ task ∈ tasks, task.gid = gid ∧ edit task = some task' := by
  induction tasks generalizing tasks' with
  | nil => cases h
  | cons first rest ih =>
    obtain ⟨hfirst, hrest⟩ := List.nodup_cons.mp hn
    unfold editTask editFirst at h
    split at h
    · rename_i hfound
      have hsame := beq_iff_eq.mp hfound
      obtain ⟨edited, hedit, rfl⟩ := Option.map_eq_some_iff.mp h
      rcases List.mem_cons.mp ht with rfl | hmem
      · exact ⟨first, List.mem_cons_self, hsame, hedit⟩
      · exact absurd (List.mem_map.mpr ⟨task', hmem, hgid.trans hsame.symm⟩) hfirst
    · rename_i hother
      obtain ⟨edited, hedit, rfl⟩ := Option.map_eq_some_iff.mp h
      rcases List.mem_cons.mp ht with rfl | hmem
      · exact absurd (beq_iff_eq.mpr hgid) hother
      · obtain ⟨task, htask, hsame, he⟩ := ih hedit hrest hmem
        exact ⟨task, List.mem_cons_of_mem _ htask, hsame, he⟩

/-- Editing a task keeps the gids. -/
theorem gids_of_editOf {gid : Gid} (h : List.Forall₂ (EditOf gid) tasks tasks') : tasks'.map (·.gid) = tasks.map (·.gid) := by
  induction h with
  | nil => rfl
  | cons hedit _ ih => rw [List.map_cons, List.map_cons, hedit.gid, ih]

/-- What an edit of one task leaves of the state, for the calls that wait for other tasks. -/
theorem Coherent.edited (h : Coherent R first s) {gid : Gid} (he : List.Forall₂ (EditOf gid) s.tasks tasks') {log : List Edit}
    (hlog : runEdits R first log = tasks') {pending : List PendingUpdate} {updating : List Gid} (ha : (pending.map (·.gid)).Nodup)
    (hp : ∀ call ∈ pending, (call ∈ s.pending ∧ call.gid ≠ gid ∧ call.gid ∈ updating) ∨
      ((call.gid ∈ s.used ∧ call.gid ∈ updating ∧ call.staged.gid = call.gid) ∧ ∀ task ∈ tasks', task.gid = call.gid →
        Idle task ∧ ∃ status, call.staged = (applyTaskPatch R task call.patch).1.withStatus status)) :
    Coherent R first ⟨tasks', s.used, updating, pending, log⟩ := by
  refine ⟨by rw [gids_of_editOf he]; exact h.distinct, ?_, ?_, ha, ?_, ?_, hlog⟩
  · intro task' ht'
    obtain ⟨task, ht, hedit⟩ := exists_of_forall₂ he ht'
    rw [hedit.gid]
    exact h.used task ht
  · intro call hc
    rcases hp call hc with ⟨hold, _, hupdating⟩ | ⟨hnew, _⟩
    · exact ⟨(h.known call hold).1, hupdating, (h.known call hold).2.2⟩
    · exact hnew
  · intro call hc task' ht' hgid
    rcases hp call hc with ⟨hold, hne, _⟩ | ⟨_, hnew⟩
    · obtain ⟨task, ht, hedit⟩ := exists_of_forall₂ he ht'
      have hsame : task.gid = call.gid := hedit.gid.symm.trans hgid
      rw [hedit.others (by rw [hsame]; exact hne)]
      exact h.staged call hold task ht hsame
    · exact hnew task' ht' hgid
  · intro task' ht'
    obtain ⟨task, ht, hedit⟩ := exists_of_forall₂ he ht'
    exact hedit.timed (h.timed task ht)

/-- What `update_task` does with the task that it has found. -/
theorem updateTask_cases {patch : TaskPatch} {privateTorrent : Bool} {task task' : DownloadTask} {copy : Option DownloadTask}
    (h : updateTask R patch privateTorrent task = some (task', copy)) :
    (task' = { (applyTaskPatch R task patch).1 with status := task.status } ∧ copy = none) ∨
      (task.status = .active ∧ task.kind ≠ .torrent ∧ task' = { task with status := .waiting } ∧ copy = some (applyTaskPatch R task patch).1) := by
  unfold updateTask at h
  split at h
  · cases h
  dsimp only at h
  split at h
  · rename_i hrestart
    cases h
    simp only [needsRestart, Bool.and_eq_true, beq_iff_eq, bne_iff_ne] at hrestart
    exact .inr ⟨hrestart.1.1, hrestart.1.2, rfl, rfl⟩
  · cases h
    exact .inl ⟨rfl, rfl⟩

/-- Staging an update keeps the log coherent: the copy is what the patch makes of the task. -/
theorem Coherent.update {gid : Gid} {patch : TaskPatch} {privateTorrent : Bool} (h : Coherent R first s)
    (hq : s.undisturbed (.updateTask gid patch privateTorrent) = true) (hs : step R s (.updateTask gid patch privateTorrent) = some s') :
    Coherent R first s' := by
  obtain ⟨tasks, happly, rfl⟩ := Option.map_eq_some_iff.mp hs
  obtain ⟨task, task', hfind, hedit⟩ := find?_of_editFirst happly
  obtain ⟨⟨edited, copy⟩, hupdate, rfl⟩ := Option.map_eq_some_iff.mp hedit
  obtain ⟨hmem, hgid⟩ := found_gid hfind
  have hcopy : stagedCopy R gid patch privateTorrent s.tasks = copy := by
    rw [stagedCopy, hfind, Option.bind_some, hupdate]
    rfl
  have hothers : ∀ call ∈ s.pending, call.gid ≠ gid := fun call hc => (not_pending hq hc).symm
  rw [hcopy]
  rcases updateTask_cases hupdate with ⟨hedited, rfl⟩ | ⟨hactive, hkind, hedited, rfl⟩
  · have hsame : editTask gid (fun t => some { (applyTaskPatch R t patch).1 with status := t.status }) s.tasks = some tasks := by
      refine (editFirst_congr ?_).trans happly
      intro t ht
      rw [hfind] at ht
      cases ht
      rw [hupdate, Option.map_some, ← hedited]
    refine h.edited (editOf_editTask hsame ?_ ?_) ?_ h.apart fun call hc => .inl ⟨hc, hothers call hc, (h.known call hc).2.1⟩
    · intro t t' ht he
      cases he
      exact (gid_applyTaskPatch patch).trans ht
    · intro t t' _ _ he htimed
      cases he
      intro hscheduled
      rw [← htimed hscheduled]
      exact congrArg _ (startAt_applyTaskPatch patch)
    · rw [runEdits_snoc, h.log, Edit.apply, hsame]
      rfl
  · have hsame : editTask gid preempt s.tasks = some tasks := by
      refine (editFirst_congr ?_).trans happly
      intro t ht
      rw [hfind] at ht
      cases ht
      rw [hupdate, preempt, if_pos hactive, Option.map_some, ← hedited]
    have hedits : List.Forall₂ (EditOf gid) s.tasks tasks := by
      refine editOf_editTask hsame ?_ ?_
      · intro t t' ht he
        exact (kept_preempt he).gid.trans ht
      · intro t t' _ _ he
        exact (quiet_preempt he).timed
    refine h.edited hedits ?_ ?_ ?_
    · rw [runEdits_snoc, h.log, Edit.apply, Section.apply, hsame]
      rfl
    · rw [List.map_append]
      refine List.Nodup.append h.apart (List.nodup_singleton _) ?_
      intro other hother hlast
      obtain ⟨call, hc, rfl⟩ := List.mem_map.mp hother
      rw [List.map_singleton, List.mem_singleton] at hlast
      exact hothers call hc hlast
    · intro call hc
      rcases List.mem_append.mp hc with hold | hlast
      · exact .inl ⟨hold, hothers call hold, List.mem_cons_of_mem _ (h.known call hold).2.1⟩
      · rw [List.mem_singleton.mp hlast]
        refine .inr ⟨⟨hgid ▸ h.used task hmem, List.mem_cons_self, (gid_applyTaskPatch patch).trans hgid⟩, ?_⟩
        intro waiting hwaiting hsamegid
        obtain ⟨old, hold, holdgid, hpreempt⟩ := mem_editTask hsame h.distinct hwaiting (hsamegid.trans rfl)
        have holdtask : old = task := List.inj_on_of_nodup_map h.distinct hold hmem (holdgid.trans hgid.symm)
        subst holdtask
        rw [preempt, if_pos hactive] at hpreempt
        cases hpreempt
        refine ⟨⟨by simp, by simp, hkind⟩, old.status, ?_⟩
        calc (applyTaskPatch R old patch).1 = (applyTaskPatch R old patch).1.withStatus old.status := applyTaskPatch_status old old.status patch
          _ = ((applyTaskPatch R old patch).1.withStatus .waiting).withStatus old.status := (withStatus_withStatus _ _).symm
          _ = (applyTaskPatch R (old.withStatus .waiting) patch).1.withStatus old.status := by rw [applyTaskPatch_status]

/-- The calls that still wait when one of them is done. -/
theorem Coherent.others {i : ℕ} {call : PendingUpdate} (h : Coherent R first s) (hi : s.pending[i]? = some call) :
    ((s.pending.eraseIdx i).map (·.gid)).Nodup ∧ ∀ other ∈ s.pending.eraseIdx i, other ∈ s.pending ∧ other.gid ≠ call.gid ∧
      other.gid ∈ s.updating.filter (· != call.gid) := by
  have hsub : (s.pending.eraseIdx i).Sublist s.pending := List.eraseIdx_sublist ..
  have happart := ((cons_eraseIdx_perm hi).map (·.gid)).nodup_iff.mpr h.apart
  refine ⟨(hsub.map _).nodup h.apart, ?_⟩
  intro other hother
  have hne : other.gid ≠ call.gid := by
    intro heq
    exact (List.nodup_cons.mp happart).1 (List.mem_map.mpr ⟨other, hother, heq⟩)
  exact ⟨hsub.subset hother, hne, List.mem_filter.mpr ⟨(h.known other (hsub.subset hother)).2.1, by simpa using hne⟩⟩

/-- An edit of a list, or none if there is no such task. -/
theorem editOf_getD {gid : Gid} {edited : Option (List DownloadTask)} (h : ∀ tasks', edited = some tasks' → List.Forall₂ (EditOf gid) tasks tasks') :
    List.Forall₂ (EditOf gid) tasks (edited.getD tasks) := by
  cases edited with
  | none => exact List.forall₂_same.mpr fun t _ => .refl gid t
  | some tasks' => exact h tasks' rfl

/-- Writing the copy back is the edit by the patch, since no other call has edited the task meanwhile. -/
theorem Coherent.writeBack {i : ℕ} (h : Coherent R first s) (hs : step R s (.writeBack i) = some s') : Coherent R first s' := by
  obtain ⟨call, hcall, hstate⟩ := Option.map_eq_some_iff.mp hs
  have hmem := List.mem_of_getElem? hcall
  obtain ⟨_, _, hgid⟩ := h.known call hmem
  -- the copy is what the patch makes of the task now
  have hsame : (Section.writeBack call.staged).apply R s.tasks = (Edit.update call.gid call.patch).apply R s.tasks := by
    refine (congrArg (fun gid => editTask gid (fun t => some { call.staged with status := t.status }) s.tasks) hgid).trans (editFirst_congr ?_)
    intro task hfind
    obtain ⟨htask, htaskgid⟩ := found_gid hfind
    obtain ⟨_, status, hstaged⟩ := h.staged call hmem task htask htaskgid
    rw [hstaged]
    rfl
  obtain ⟨hapart, hothers⟩ := h.others hcall
  rw [← hstate, hsame]
  refine h.edited (editOf_getD ?_) ?_ hapart fun other hother => .inl (hothers other hother)
  · intro tasks' hedit
    refine editOf_editTask hedit ?_ ?_
    · intro t t' ht he
      cases he
      exact (gid_applyTaskPatch call.patch).trans ht
    · intro t t' _ _ he htimed
      cases he
      intro hscheduled
      rw [← htimed hscheduled]
      exact congrArg _ (startAt_applyTaskPatch call.patch)
  · rw [runEdits_snoc, h.log]

/-- An update that is given up edits no task but its own. -/
theorem Coherent.giveUp {i : ℕ} (h : Coherent R first s) (hs : step R s (.giveUp i) = some s') : Coherent R first s' := by
  obtain ⟨call, hcall, hstate⟩ := Option.map_eq_some_iff.mp hs
  obtain ⟨hapart, hothers⟩ := h.others hcall
  rw [← hstate]
  refine h.edited (editOf_getD ?_) ?_ hapart fun other hother => .inl (hothers other hother)
  · intro tasks' hedit
    refine editOf_editTask hedit ?_ ?_
    · intro t t' ht he
      split at he
      · cases he
        exact ht
      · cases he
    · intro t t' _ _ he _
      split at he
      · cases he
        exact timed_of_ne nofun
      · cases he
  · rw [runEdits_snoc, h.log, Edit.apply]

/-- Every step that does not edit a task being updated keeps the log coherent. -/
theorem Coherent.step {a : Action} (h : Coherent R first s) (hq : s.undisturbed a = true) (hs : step R s a = some s') : Coherent R first s' := by
  cases a with
  | run a => exact h.run hq hs
  | updateTask gid patch privateTorrent => exact h.update hq hs
  | writeBack i => exact h.writeBack hs
  | giveUp i => exact h.giveUp hs

/-- Every run of operations in which no call edits a task that waits for its worker leaves the tasks that its calls make one after the other, and every
Scheduled task has a time to start at. -/
theorem edits_kept (hn : (first.map (·.gid)).Nodup) (ht : ∀ task ∈ first, task.status = .scheduled → task.startAt.isSome = true)
    (h : Reach (· = start first) (fun s s' => ∃ a, s.undisturbed a = true ∧ step R s a = some s') s) :
    runEdits R first s.log = s.tasks ∧ ∀ task ∈ s.tasks, task.status = .scheduled → task.startAt.isSome = true := by
  have hcoherent : Coherent R first s := by
    refine Reach.invariant (fun s hs => ?_) (fun s s' hinv hs => ?_) h
    · subst hs
      exact coherent_start hn ht
    · obtain ⟨a, hq, hstep⟩ := hs
      exact hinv.step hq hstep
  exact ⟨hcoherent.log, hcoherent.timed⟩

/-- An Active download, and a patch of its address. -/
def running : DownloadTask := { DownloadTask.newHttp 0 [['u']] [] Options.empty with status := .active }

def moved : TaskPatch := ⟨some [['v']], none, none, [], []⟩

/-- The address after a restart that nothing disturbs. -/
theorem edits_kept_moved : runEdits TaskList.blankReader [running] [.ofSection (.preempt 0), .update 0 moved] =
    [{ running with uris := [['v']], status := .waiting }] :=
  (edits_kept (R := TaskList.blankReader) (s := ⟨[{ running with uris := [['v']], status := .waiting }], [0], [], [],
      [.ofSection (.preempt 0), .update 0 moved]⟩) (show ([running].map (·.gid)).Nodup from List.nodup_singleton 0) (by simp [running])
    (.step (.step (.init rfl) ⟨.updateTask 0 moved false, rfl, rfl⟩) ⟨.writeBack 0, rfl, rfl⟩)).1

/-- `set_task_schedule` during the wait of `update_task`: the copy takes the time away again. -/
theorem schedule_lost : ¬ ∀ s : Restarts, Reach (· = start [running]) (fun s s' => ∃ a, step TaskList.blankReader s a = some s') s → s.pending = [] →
    ∀ task ∈ s.tasks, task.status = .scheduled → task.startAt.isSome = true := by
  intro hkept
  have hreach : Reach (· = start [running]) (fun s s' => ∃ a, step TaskList.blankReader s a = some s')
      ⟨[{ running with uris := [['v']], status := .scheduled }], [0], [], [],
        [.ofSection (.preempt 0), .ofSection (.setTaskSchedule 0 100), .update 0 moved]⟩ :=
    .step (.step (.step (.init rfl) ⟨.updateTask 0 moved false, rfl⟩) ⟨.run (.setTaskSchedule 0 100), rfl⟩) ⟨.writeBack 0, rfl⟩
  have hsome := hkept _ hreach rfl _ (List.mem_singleton_self _) rfl
  cases hsome

end Restarts

end Engine

/-!
## Saved sessions over whole runs

With no collisions of the content hash, a call of `save_session` that returned `Ok` leaves in the file the list of its start or a newer
one, writes follow the order of the revisions, and after a write that failed nothing is skipped but what the file holds already.
-/

namespace Engine

universe u v

variable {T : Type u} {H : Type v} [Persisted T H]

/-- Between `c` and `c'` a call goes past the write of the list of a revision. -/
def SaveCall.Skips (c c' : SaveCall) (rev : ℕ) : Prop :=
  (c.phase = .looking rev ∧ c'.phase = .returned (.ok ())) ∨ ∃ data, c.phase = .encoded rev data ∧ c'.phase = .written rev

theorem SaveCall.not_skips_self {c : SaveCall} {rev : ℕ} : ¬ c.Skips c rev := by
  rintro (⟨hlooking, hok⟩ | ⟨data, hencoded, hwritten⟩)
  · rw [hlooking] at hok
    cases hok
  · rw [hencoded] at hwritten
    cases hwritten

namespace SessionStore

/-- After a write that failed, a call goes past its own write only when the file holds its list. -/
theorem Sound.skip {s t : SessionStore T H} (h : Sound s) (hfree : s.CollisionFree) (hfailed : s.failed = true) {i rev : ℕ}
    {c : SaveCall} {p : SavePhase} (hc : s.calls[i]? = some c) (hmove : SaveMove s i c p t) (hskips : c.Skips ⟨c.began, p⟩ rev) :
    s.Holds rev ∧ t.file = s.file := by
  have hfits := h.calls i c hc
  have hcurrent := h.current_move hmove hfits hfree hc
  rcases hskips with ⟨hlooking, hok⟩ | ⟨data, hencoded, hwritten⟩
  · cases hmove with
    | saved rev' hphase hsaved =>
      rw [hlooking] at hphase
      cases hphase
      exact ⟨h.recorded (.inl hfailed) rev hsaved, rfl⟩
    | left r hphase =>
      rw [hlooking] at hphase
      cases hphase
    | loaded | unsaved | entered | encoded | refused | same | differs | persisted | failed | remembered | stored => cases hok
  · cases hmove with
    | same rev' data' hphase hhash =>
      cases hwritten
      exact ⟨hcurrent rev rfl, rfl⟩
    | remembered rev' data' hphase =>
      rw [hencoded] at hphase
      cases hphase
    | loaded | saved | unsaved | entered | encoded | refused | differs | persisted | failed | stored | left => cases hwritten

variable [DecidableEq H]

/-- In every run of writers and calls: a call that returned `Ok` leaves in the file the list of its start or a newer one, writes follow the order of the
revisions, and after a write that failed a call goes past its own write only when the file holds its list already. -/
theorem session_saved (s : SessionStore T H) (h : Reachable s) (hfree : s.CollisionFree) :
    (∀ c ∈ s.calls, c.phase = .returned (.ok ()) → ∃ rev, c.began ≤ rev ∧ rev ≤ s.rev ∧ s.Holds rev) ∧
      s.writes.Pairwise (· ≤ ·) ∧
      (s.failed = true → ∀ a s' (i : ℕ) (c c' : SaveCall) rev, s.step a = some s' → s.calls[i]? = some c → s'.calls[i]? = some c' →
        c.Skips c' rev → s.Holds rev ∧ s'.file = s.file) := by
  have hsound := h.sound hfree
  refine ⟨?_, hsound.writes.1, ?_⟩
  · intro c hc hphase
    obtain ⟨i, hi⟩ := List.mem_iff_getElem?.mp hc
    have hfits := hsound.calls i c hi
    unfold Fits at hfits
    rw [hphase] at hfits
    obtain ⟨rev, hcurrent, hbegan⟩ := hfits
    have hholds := hsound.current rev hcurrent
    obtain ⟨data, ⟨l, hl, -⟩, -⟩ := id hholds
    have hlt := (List.getElem?_eq_some_iff.mp hl).1
    rw [hsound.revs] at hlt
    exact ⟨rev, hbegan, Nat.lt_succ_iff.mp hlt, hholds⟩
  · intro hfailed a s' i c c' rev hs hc hc' hskips
    have hsame : s'.calls[i]? = s.calls[i]? → s.Holds rev ∧ s'.file = s.file := by
      intro heq
      rw [heq, hc] at hc'
      cases hc'
      exact absurd hskips SaveCall.not_skips_self
    rcases step_cases hs with hwriter | rfl | ⟨j, d, p, t, hd, hmove, rfl⟩
    · refine hsame ?_
      cases hwriter with
      | lock | modify | count | unlock => rfl
    · exact hsame (List.getElem?_append_left (List.getElem?_eq_some_iff.mp hc).1)
    · have hcalls := (hmove.rest (hsound.calls j d hd)).1
      rcases getElem?_setPhase hc' with ⟨rfl, rfl⟩ | ⟨-, hkept⟩
      · rw [hc] at hd
        cases hd
        have hskip := hsound.skip hfree hfailed hc hmove hskips
        exact hskip
      · rw [hcalls, hc] at hkept
        cases hkept
        exact absurd hskips SaveCall.not_skips_self

/-! ### A run -/

/-- A task of one byte. -/
structure Entry where
  byte : UInt8
  deriving DecidableEq

instance : Persisted Entry (List UInt8) where
  status _ := .waiting
  toVec tasks := .ok (tasks.map Entry.byte)
  hash := id

/-- The steps of a call up to its check of the hash. -/
def upToCompare (i : ℕ) : List (Action Entry) := [.call, .loadRev i, .loadSavedRev i, .enter i, .encode i, .compare i]

def change (tasks : List Entry) : List (Action Entry) := [.lock, .modify tasks, .count, .unlock]

/-- The empty list is saved, the save of a longer one fails, and the list is empty again before the third call. -/
def revertedRun : List (Action Entry) :=
  List.flatten [upToCompare 0, [.persist 0 none, .remember 0, .store 0, .leave 0], change [⟨1⟩], upToCompare 1,
    [.persist 1 (some "disk full"), .leave 1], change [], upToCompare 2]

/-- Lists stand for their own hashes here. -/
theorem collisionFree_entries (s : SessionStore Entry (List UInt8)) : s.CollisionFree := fun _ _ _ _ _ _ h => h

/-- One write is made, of the empty list, and the file holds it. -/
theorem session_saved_reverted :
    ∃ s : SessionStore Entry (List UInt8), runActions step (new [] none) revertedRun = some s ∧ s.writes = [0] ∧ s.file = some [] ∧
      ∀ c ∈ s.calls, c.phase = .returned (.ok ()) → ∃ rev, c.began ≤ rev ∧ rev ≤ s.rev ∧ s.Holds rev := by
  refine ⟨_, rfl, rfl, rfl, ?_⟩
  have hreach : Reachable (_ : SessionStore Entry (List UInt8)) := .runActions (L := revertedRun) rfl (.init ⟨[], none, rfl⟩)
  exact (session_saved _ hreach (collisionFree_entries _)).1

/-- The third call of the run skips its write, though the write before it failed. -/
theorem skipped_after_failure :
    ¬ ∀ s : SessionStore Entry (List UInt8), Reachable s → s.CollisionFree → s.failed = true →
      ∀ a s' (i : ℕ) (c c' : SaveCall) rev, s.step a = some s' → s.calls[i]? = some c → s'.calls[i]? = some c' → ¬ c.Skips c' rev := by
  intro h
  have hreach : Reachable (_ : SessionStore Entry (List UInt8)) :=
    .runActions (L := revertedRun.dropLast) rfl (.init ⟨[], none, rfl⟩)
  exact h _ hreach (collisionFree_entries _) rfl (.compare 2) _ 2 _ _ 2 rfl rfl rfl (.inr ⟨[], rfl, rfl⟩)

end SessionStore

end Engine

/-!
## Workers over whole runs

However the steps of calls, of the starter and of workers come, no more gids are busy than the limit, tasks are started in the order of the
list, and a worker that ends touches nothing that is not its own.
-/

namespace Engine

namespace Manager

variable {R : OptionReader} {maxConcurrent : ℕ} {s : Manager} {past : List Manager}

/-- The loop of a call may leave a task behind: it is not Waiting (any more) or cannot start, it was busy when the call counted, or it was being
updated when the loop was at it. -/
def Passed (states : List Manager) (task : DownloadTask) : Prop :=
  task.status ≠ .waiting ∨ task.hasData = false ∨ WasBusy states task.gid ∨ WasUpdated states task.gid

/-- A task that the loop has passed may be left behind. -/
theorem LoopOk.passes {l : StartLoop} (h : LoopOk maxConcurrent s l) {states : List Manager} (hground : Grounded l states) {j : ℕ} (hj : j < l.index)
    {t : DownloadTask} (ht : s.list.tasks[j]? = some t) : Passed states t := by
  rcases h.passed j hj t ht with hstatus | hdata | hbusy | hskipped
  · exact Or.inl hstatus
  · exact Or.inr (Or.inl hdata)
  · exact Or.inr (Or.inr (Or.inl (hground.busy _ hbusy)))
  · exact Or.inr (Or.inr (Or.inr (hground.skipped _ hskipped)))

/-- The slots of a call are filled by the gids it counted and those it has started. -/
theorem LoopOk.filled {l : StartLoop} (h : LoopOk maxConcurrent s l) {states : List Manager} (hground : Grounded l states)
    (hfull : l.slots ≤ l.started.length) : ∃ gids : Finset Gid, gids.card = maxConcurrent ∧
        ∀ gid ∈ gids, WasBusy states gid ∨ WasStarted states gid := by
  refine ⟨l.busy ∪ l.started.toFinset, ?_, fun gid hgid => ?_⟩
  · have hapart : Disjoint l.busy l.started.toFinset :=
      Finset.disjoint_right.mpr fun gid hgid => h.apart gid (List.mem_toFinset.mp hgid)
    rw [Finset.card_union_of_disjoint hapart, List.toFinset_card_of_nodup h.nodup, le_antisymm h.started_le hfull, h.slots]
  · rcases Finset.mem_union.mp hgid with hgid | hgid
    · exact Or.inl (hground.busy gid hgid)
    · exact Or.inr (hground.started gid (List.mem_toFinset.mp hgid))

/-- A turn of the loop that starts a worker. -/
theorem visit_publishing {l : StartLoop} {gid : Gid} {kind : TaskKind} (h : (s.visit l).starter = some (.publishing l gid kind)) :
    ∃ task, s.list.tasks[l.index]? = some task ∧ task.gid = gid ∧ task.status = .waiting ∧ task.hasData = true ∧ gid ∉ l.busy ∧
      gid ∉ s.updating := by
  unfold visit at h
  split at h
  · cases h
  split at h
  · cases h
  rename_i task hi
  split at h
  · cases h
  rename_i hpass
  rw [not_or, not_not] at hpass
  split at h
  · cases h
  rename_i hupdating
  split at h
  · cases h
  · rename_i task' hsome
    cases h
    exact ⟨task, hi, rfl, hpass.1, (start_some hsome).2.1, hpass.2, hupdating⟩

/-- A turn of the loop that is the last. -/
theorem visit_none {l : StartLoop} (h : (s.visit l).starter = none) : l.slots ≤ l.started.length ∨ s.list.tasks[l.index]? = none := by
  unfold visit at h
  split at h
  · rename_i hfull
    exact Or.inl hfull
  · split at h
    · rename_i hend
      exact Or.inr hend
    · split at h
      · cases h
      split at h
      · cases h
      split at h
      · cases h
      · cases h

/-- What is known of the loop that the starter is in. -/
theorem Ok.loopOk (h : Ok maxConcurrent s) {l : StartLoop} (hst : s.starter = some (.looping l)) : LoopOk maxConcurrent s l := by
  have hs := h.starter
  unfold StarterOk at hs
  rwa [hst] at hs

/-- What the loop has noted comes from states of the run. -/
theorem History.loop (h : History R maxConcurrent (s :: past)) {l : StartLoop} (hst : s.starter = some (.looping l)) : Grounded l (s :: past) := by
  have hs := h.grounded
  unfold noted at hs
  rwa [hst] at hs

/-- The steps of a worker that write the task or take an entry away. -/
theorem workerStep_effects {e : Epoch} {w : Worker} {a : WorkerStep} {s' : Manager} (hs : s.workerStep R e w a = some s') :
    (s'.list = s.list ∨ w.stage = .judged true) ∧
      (∀ gid, s'.active.get? gid = s.active.get? gid ∨ (s'.active.get? gid).isSome = true ∨ gid = w.gid ∧ s.active.get? gid = some e) := by
  cases a with
  | register =>
    simp only [workerStep, Option.ite_none_right_eq_some] at hs
    obtain ⟨-, hs⟩ := hs
    cases hs
    refine ⟨Or.inl rfl, fun gid => ?_⟩
    show (s.active.insert w.gid e).get? gid = _ ∨ ((s.active.insert w.gid e).get? gid).isSome = true ∨ _
    rw [OrdMap.get?_insert]
    split
    · exact Or.inr (Or.inl rfl)
    · exact Or.inl rfl
  | clear | askToken | endDownload | judge =>
    simp only [workerStep, Option.ite_none_right_eq_some] at hs
    obtain ⟨-, hs⟩ := hs
    cases hs
    exact ⟨Or.inl rfl, fun gid => Or.inl rfl⟩
  | askStatus =>
    simp only [workerStep, Option.ite_none_right_eq_some] at hs
    obtain ⟨-, hs⟩ := hs
    split at hs
    · cases hs
      exact ⟨Or.inl rfl, fun gid => Or.inl rfl⟩
    · cases hs
      exact ⟨Or.inl rfl, fun gid => Or.inl rfl⟩
  | write result done =>
    simp only [workerStep] at hs
    split at hs
    · rename_i current hstage
      rw [Option.ite_none_right_eq_some] at hs
      obtain ⟨-, hs⟩ := hs
      cases hs
      refine ⟨?_, fun gid => Or.inl rfl⟩
      cases current with
      | false => exact Or.inl rfl
      | true => exact Or.inr hstage
    · cases hs
  | leave =>
    simp only [workerStep, Option.ite_none_right_eq_some] at hs
    obtain ⟨-, hs⟩ := hs
    cases hs
    refine ⟨Or.inl rfl, fun gid => ?_⟩
    dsimp only
    split
    · rename_i hmine
      rw [OrdMap.get?_erase]
      split
      · rename_i hgid
        exact Or.inr (Or.inr ⟨hgid, by rw [hgid]; exact hmine⟩)
      · exact Or.inl rfl
    · exact Or.inl rfl

/-- In every run under one limit: no more gids than the limit are busy; a start takes a task that is Waiting, can start, is not busy and is not being
updated, and may leave every task before it behind; a call stops when as many gids as the limit were busy or have been started by it, or
when it may leave every task behind; a worker writes the task, or takes an entry away, only while the entry under its gid has its epoch. -/
theorem concurrent_download_limit (h : History R maxConcurrent (s :: past)) :
    s.busyGids.card ≤ maxConcurrent ∧
      (∀ l, s.starter = some (.looping l) →
        (∀ gid kind, (s.visit l).starter = some (.publishing l gid kind) →
          ∃ task, s.list.tasks[l.index]? = some task ∧ task.gid = gid ∧ task.status = .waiting ∧ task.hasData = true ∧ gid ∉ s.busyGids ∧
            gid ∉ s.updating ∧ ∀ j < l.index, ∀ t, s.list.tasks[j]? = some t → Passed (s :: past) t) ∧
        ((s.visit l).starter = none →
          (∃ gids : Finset Gid, gids.card = maxConcurrent ∧ ∀ gid ∈ gids, WasBusy (s :: past) gid ∨ WasStarted (s :: past) gid) ∨
            ∀ t ∈ s.list.tasks, Passed (s :: past) t)) ∧
      ∀ e w a s', s.workers e = some w → s.workerStep R e w a = some s' →
        (s'.list ≠ s.list ∨ w.stage = .judged true → s.active.get? w.gid = some e) ∧
          ∀ gid, s.active.get? gid ≠ none → s'.active.get? gid = none → gid = w.gid ∧ s.active.get? gid = some e := by
  have hok := Reachable.ok h.reach
  refine ⟨hok.bound, fun l hst => ⟨fun gid kind hpublish => ?_, fun hstop => ?_⟩, fun e w a s' hw hs => ⟨fun hwrite => ?_, fun gid hsome hnone => ?_⟩⟩
  · have hl := hok.loopOk hst
    obtain ⟨task, hi, rfl, hstatus, hdata, hbusy, hupdating⟩ := visit_publishing hpublish
    refine ⟨task, hi, rfl, hstatus, hdata, fun hin => ?_, hupdating, fun j hj t ht => hl.passes (h.loop hst) hj ht⟩
    obtain ⟨e, w, hw, hgid⟩ := hok.mem_busyGids.mp hin
    rcases hl.covers e w hw with hcounted | hstarted
    · exact hbusy (hgid ▸ hcounted)
    · exact hl.not_started hok.distinct hi (hgid ▸ hstarted)
  · have hl := hok.loopOk hst
    rcases visit_none hstop with hfull | hend
    · exact Or.inl (hl.filled (h.loop hst) hfull)
    · right
      intro t ht
      obtain ⟨j, hj⟩ := List.mem_iff_getElem?.mp ht
      have hlt := (List.getElem?_eq_some_iff.mp hj).1
      exact hl.passes (h.loop hst) (hlt.trans_le (List.getElem?_eq_none_iff.mp hend)) hj
  · have hstage : w.stage = .judged true := by
      rcases hwrite with hlist | hstage
      · exact (workerStep_effects hs).1.resolve_left hlist
      · exact hstage
    exact hok.get_active hw (by rw [hstage]; rfl)
  · rcases (workerStep_effects hs).2 gid with hsame | hthere | hmine
    · exact absurd (hsame.symm.trans hnone) hsome
    · rw [hnone] at hthere
      cases hthere
    · exact hmine

/-- A download that waits. -/
def waitingDownload : DownloadTask := DownloadTask.newHttp 0 [['u']] [] Options.empty

/-- A call that starts it, and its worker up to the download. -/
def startDownload : List WorkersAction :=
  [.starter .lock, .starter .readActive, .starter .readStarting, .starter .findStartable, .starter .openList, .starter .visit,
    .starter .publish, .starter .visit, .worker 0 .register, .worker 0 .clear, .worker 0 .askToken, .worker 0 .askStatus]

/-- With a limit of one, the one download that waits is busy. -/
theorem concurrent_download_limit_one :
    ∃ (s : Manager) (past : List Manager), History TaskList.blankReader 1 (s :: past) ∧ s.busyGids = {0} ∧ s.busyGids.card ≤ 1 := by
  obtain ⟨s, hrun, hbusy⟩ :
      ∃ s ∈ runActions (step TaskList.blankReader 1) (start [waitingDownload] 0) startDownload, s.busyGids = {0} :=
    ⟨_, rfl, rfl⟩
  have hreachable : Reachable TaskList.blankReader 1 s := Reach.runActions hrun (.init ⟨[waitingDownload], 0, by decide, rfl⟩)
  obtain ⟨past, hpast⟩ := Reach.trace hreachable
  exact ⟨s, past, hpast, hbusy, (concurrent_download_limit hpast).1⟩

end Manager

/-! ### Calls that stop a worker -/

namespace Calls

variable {R : OptionReader} {maxConcurrent : ℕ} {s : Calls}

/-- In every run in which no `pause` and no `remove` writes too late: no two workers have one gid, and when the calls that took a task out of Active
have no token of its worker left to cancel, a worker that has passed its startup check has a cancelled token. -/
theorem no_orphan_worker (h : s.ReachableInTime R maxConcurrent) :
    (∀ e e' w w', s.manager.workers e = some w → s.manager.workers e' = some w' → w.gid = w'.gid → e = e') ∧
      ∀ e w, s.manager.workers e = some w → w.stage.passed = true → hasActive s.manager.list.tasks w.gid = false →
        (∀ op ∈ s.ops, ¬ op.Owes w.gid e) → e ∈ s.manager.cancelled := by
  refine ⟨h.ok.manager.one, fun e w hw hpassed hactive hnone => ?_⟩
  rcases h.ok.covered e w hw hpassed with hwas | hin | ⟨op, hop, howes⟩
  · rw [hactive] at hwas
    cases hwas
  · exact hin
  · exact absurd howes (hnone op hop)

/-- A call of the starter, and the worker up to the download. -/
def startDownload : List Action :=
  [.starter .lock, .starter .readActive, .starter .readStarting, .starter .findStartable, .starter .openList, .starter .visit,
    .starter .publish, .starter .visit, .worker 0 .register, .worker 0 .clear, .worker 0 .askToken, .worker 0 .askStatus]

/-- `pause` has found no worker when one starts, and writes when it has passed its check. -/
theorem pause_misses_worker :
    ∃ s : Calls, s.Reachable TaskList.blankReader 1 ∧ s.ops = [] ∧
      ∃ w, s.manager.workers 0 = some w ∧ w.stage = .running ∧ hasActive s.manager.list.tasks w.gid = false ∧ 0 ∉ s.manager.cancelled := by
  obtain ⟨s, hrun, hops, w, hw, hworker⟩ :
      ∃ s ∈ runActions (step TaskList.blankReader 1) (start [Manager.waitingDownload] 0)
        (List.flatten [[.call (.pause 0), .advance 0 true, .advance 0 true], startDownload, [.advance 0 true]]),
        s.ops.length = 0 ∧
          ∃ w ∈ s.manager.workers 0, w.stage = .running ∧ hasActive s.manager.list.tasks w.gid = false ∧ 0 ∉ s.manager.cancelled :=
    ⟨_, rfl, rfl, _, rfl, rfl, rfl, by decide⟩
  exact ⟨s, Reach.runActions hrun (.init ⟨_, 0, by decide, rfl⟩), List.length_eq_zero_iff.mp hops, w, hw, hworker⟩

/-- A `pause` that comes later finds the worker and cancels its token. -/
theorem no_orphan_worker_paused :
    ∃ s : Calls, s.ReachableInTime TaskList.blankReader 1 ∧
      ∃ w, s.manager.workers 0 = some w ∧ w.stage = .running ∧ hasActive s.manager.list.tasks w.gid = false ∧ 0 ∈ s.manager.cancelled := by
  obtain ⟨s, hrun, hops, w, hw, hstage, hactive⟩ :
      ∃ s ∈ runActions (fun s a => if s.writesTooLate a = false then step TaskList.blankReader 1 s a else none)
        (start [Manager.waitingDownload] 0)
        (List.flatten [startDownload, [.call (.pause 0), .advance 0 true, .advance 0 true, .advance 0 true, .advance 0 true]]),
        s.ops.length = 0 ∧ ∃ w ∈ s.manager.workers 0, w.stage = .running ∧ hasActive s.manager.list.tasks w.gid = false :=
    ⟨_, rfl, rfl, _, rfl, rfl, rfl⟩
  have hreachable : s.ReachableInTime TaskList.blankReader 1 := Reach.runGuarded hrun (.init ⟨_, 0, by decide, rfl⟩)
  refine ⟨s, hreachable, w, hw, hstage, hactive, ?_⟩
  refine (no_orphan_worker hreachable).2 0 w hw (by rw [hstage]; rfl) hactive fun op hop => ?_
  rw [List.length_eq_zero_iff.mp hops] at hop
  cases hop

end Calls

/-! ### Edits that move a partial file -/

namespace Updates

variable {R : OptionReader} {maxConcurrent : ℕ} {s : Updates} {gid : Gid}

/-- In every run in which no task is started while its file is to be moved, no file of a task that is not Active is moved while a worker of it is
there, and no worker leaves `starting_workers` between the two reads of a wait for it: while `relocate_partial` runs for a gid, no worker of that gid
is in one of the two maps. -/
theorem no_move_under_worker (h : s.ReachableUndisturbed R maxConcurrent) (hop : .relocating gid ∈ s.ops) :
    s.manager.starting.get? gid = none ∧ s.manager.active.get? gid = none := by
  have hnone : ∀ e w, s.manager.workers e = some w → w.gid ≠ gid := h.ok.holds _ hop gid rfl
  refine ⟨Option.eq_none_iff_forall_ne_some.mpr fun e he => ?_, Option.eq_none_iff_forall_ne_some.mpr fun e he => ?_⟩
  · obtain ⟨w, hw, hgid, -⟩ := (h.ok.manager.starting gid e).mp he
    exact hnone e w hw hgid
  · obtain ⟨w, hw, hgid, -⟩ := (h.ok.manager.active gid e).mp he
    exact hnone e w hw hgid

/-- A download runs, its file name is edited, the worker stops, and the file is being moved. -/
def moveDownload : List Action :=
  [.starter .lock, .starter .readActive, .starter .readStarting, .starter .findStartable, .starter .openList, .starter .visit,
    .starter .publish, .starter .visit, .worker 0 .register, .worker 0 .clear, .worker 0 .askToken, .worker 0 .askStatus,
    .update 0 ⟨none, none, some ['n'], [], []⟩ false, .advance 0 true, .advance 0 true, .advance 0 true,
    .worker 0 .endDownload, .worker 0 .judge, .worker 0 (.write .cancelled false), .worker 0 .leave,
    .advance 0 true, .advance 0 true, .advance 0 true, .advance 0 true, .advance 0 true]

/-- Whether `relocate_partial` runs for the gid. -/
def moving (gid : Gid) : UpdateOp → Bool
  | .relocating gid' => gid' == gid
  | _ => false

/-- The test finds the operation. -/
theorem relocating_of_moving (h : s.ops.any (moving gid) = true) : .relocating gid ∈ s.ops := by
  obtain ⟨op, hop, hmoving⟩ := List.any_eq_true.mp h
  cases op with
  | relocating gid' => exact beq_iff_eq.mp hmoving ▸ hop
  | _ => cases hmoving

/-- The worker has ended before its file is moved. -/
theorem no_move_under_worker_restarted :
    ∃ s : Updates, s.ReachableUndisturbed TaskList.blankReader 1 ∧ .relocating 0 ∈ s.ops ∧ s.manager.starting.get? 0 = none ∧
        s.manager.active.get? 0 = none := by
  obtain ⟨s, hrun, hmoving⟩ :
      ∃ s ∈ runActions (fun s a => if s.disturbs TaskList.blankReader a = false then step TaskList.blankReader 1 s a else none)
        (start [Manager.waitingDownload] 0) moveDownload, s.ops.any (moving 0) = true :=
    ⟨_, rfl, rfl⟩
  have hreachable : s.ReachableUndisturbed TaskList.blankReader 1 := Reach.runGuarded hrun (.init ⟨_, 0, by decide, rfl⟩)
  have hop := relocating_of_moving hmoving
  exact ⟨s, hreachable, hop, no_move_under_worker hreachable hop⟩

/-- The guard is dropped before the file is moved, and `try_start_next` starts the task again. -/
theorem moves_under_worker :
    ∃ s : Updates, s.Reachable TaskList.blankReader 1 ∧ .relocating 0 ∈ s.ops ∧ s.manager.starting.get? 0 = some 1 := by
  obtain ⟨s, hrun, hmoving, hstarting⟩ :
      ∃ s ∈ runActions (step TaskList.blankReader 1) (start [Manager.waitingDownload] 0)
        (List.flatten [moveDownload, [.starter .lock, .starter .readActive, .starter .readStarting, .starter .findStartable, .starter .openList,
          .starter .visit, .starter .publish]]), s.ops.any (moving 0) = true ∧ s.manager.starting.get? 0 = some 1 :=
    ⟨_, rfl, rfl, rfl⟩
  exact ⟨s, Reach.runActions hrun (.init ⟨_, 0, by decide, rfl⟩), relocating_of_moving hmoving, hstarting⟩

end Updates

end Engine

/-!
## Tasks that change places

Positions are counted in the waiting queue and used in the whole list. A place of the queue splits the list (`split_of_placesOf`), and
so does the place where the task goes in (`split_of_target`).
-/

namespace Engine

/-- The positions of the queue are places of the whole list. -/
theorem waitingIndices_eq (tasks : List DownloadTask) :
    waitingIndices tasks = placesOf (fun t => t.status = .waiting ∨ t.status = .paused) 0 tasks := rfl

theorem length_waitingIndices (tasks : List DownloadTask) : (waitingIndices tasks).length = (waitingQueue tasks).length := by
  rw [waitingIndices_eq, length_placesOf, waitingQueue]

/-- The place in the queue that the code finds is the place of the task in the list of waiting tasks. -/
theorem findIdx?_waitingIndices (gid : Gid) (tasks : List DownloadTask) :
    (waitingIndices tasks).findIdx? (fun i => tasks[i]?.any (·.gid == gid)) = (waitingQueue tasks).findIdx? (·.gid == gid) := by
  have h := map_placesOf (p := fun t : DownloadTask => t.status = .waiting ∨ t.status = .paused) (L := tasks)
    (fun t => t.any (·.gid == gid)) []
  rw [List.length_nil, List.nil_append, ← waitingIndices_eq] at h
  have hids := congrArg (List.findIdx? id) h
  rwa [List.findIdx?_map, List.findIdx?_map] at hids

theorem insertIdx_append_length {α : Type*} (L L' : List α) (x : α) : (L ++ L').insertIdx L.length x = L ++ x :: L' := by
  induction L with
  | nil => rfl
  | cons y L ih => rw [List.cons_append, List.length_cons, List.insertIdx_succ_cons, ih, List.cons_append]

/-- The place where a task goes in splits the list, and the queue with it. -/
theorem split_of_target (rest : List DownloadTask) {target : ℕ} (h : target ≤ (waitingQueue rest).length) (task : DownloadTask) :
    ∃ before behind, rest = before ++ behind ∧ (waitingQueue before).length = target ∧
      rest.insertIdx ((waitingIndices rest)[target]?.getD rest.length) task = before ++ task :: behind := by
  cases hplace : (waitingIndices rest)[target]? with
  | some i =>
    obtain ⟨before, x, behind, hrest, hi, -, hcount⟩ := split_of_placesOf ((waitingIndices_eq rest) ▸ hplace)
    refine ⟨before, x :: behind, hrest, hcount, ?_⟩
    rw [Option.getD_some, hi, hrest, Nat.zero_add, insertIdx_append_length]
  | none =>
    refine ⟨rest, [], (List.append_nil rest).symm, ?_, ?_⟩
    · rw [List.getElem?_eq_none_iff, length_waitingIndices] at hplace
      omega
    · rw [Option.getD_none, List.insertIdx_length_self]

theorem waitingQueue_append (L L' : List DownloadTask) : waitingQueue (L ++ L') = waitingQueue L ++ waitingQueue L' := List.filter_append ..

theorem waitingQueue_cons {task : DownloadTask} (h : task.status = .waiting ∨ task.status = .paused) (L : List DownloadTask) :
    waitingQueue (task :: L) = task :: waitingQueue L := List.filter_cons_of_pos (decide_eq_true h)

/-- What `change_position` does with a task of the queue. -/
theorem changePositionCall_spec {tasks : List DownloadTask} {gid : Gid} {current : ℕ}
    (hcurrent : (waitingQueue tasks).findIdx? (·.gid == gid) = some current) (mode : PositionMode) (pos : Int64) :
    ∃ tasks', changePositionCall gid pos mode.text tasks = (tasks', .ok (targetWaitingPos current (waitingQueue tasks).length pos mode)) ∧
      tasks'.Perm tasks ∧ MovesOne gid tasks tasks' ∧
      (waitingQueue tasks')[targetWaitingPos current (waitingQueue tasks).length pos mode]?.any (·.gid == gid) = true := by
  obtain ⟨hlt, hgid, -⟩ := List.findIdx?_eq_some_iff_getElem.mp hcurrent
  have hplace : ∃ i, (waitingIndices tasks)[current]? = some i :=
    ⟨_, List.getElem?_eq_getElem (by rw [length_waitingIndices]; exact hlt)⟩
  obtain ⟨i, hi⟩ := hplace
  obtain ⟨before, task, behind, rfl, rfl, hqueued, hcount⟩ := split_of_placesOf ((waitingIndices_eq tasks) ▸ hi)
  rw [Nat.zero_add] at hi
  have hqueue : waitingQueue (before ++ task :: behind) = waitingQueue before ++ task :: waitingQueue behind := by
    rw [waitingQueue_append, waitingQueue_cons hqueued]
  have hbefore : (waitingQueue before).length = current := hcount
  have htask : task.gid = gid := by
    have hget : (waitingQueue (before ++ task :: behind))[current]? = some task := by
      rw [hqueue, List.getElem?_append_right hbefore.le, hbefore, Nat.sub_self]
      rfl
    obtain ⟨_, hget⟩ := List.getElem?_eq_some_iff.mp hget
    rw [hget, beq_iff_eq] at hgid
    exact hgid
  unfold changePositionCall
  dsimp only
  rw [findIdx?_waitingIndices, hcurrent, length_waitingIndices, PositionMode.ofText_text]
  generalize hn : targetWaitingPos current (waitingQueue (before ++ task :: behind)).length pos mode = n
  have hlast : n ≤ (waitingQueue (before ++ behind)).length := by
    have hmin : n ≤ (waitingQueue (before ++ task :: behind)).length - 1 := by
      rw [← hn]
      unfold targetWaitingPos
      split <;> exact min_le_right _ _
    rw [hqueue, List.length_append, List.length_cons] at hmin
    rw [waitingQueue_append, List.length_append]
    omega
  dsimp only
  rw [hn]
  refine ⟨_, rfl, ?_⟩
  unfold changePosition
  dsimp only
  rw [findIdx?_waitingIndices, hcurrent, length_waitingIndices]
  dsimp only
  rw [hn]
  by_cases hsame : current = n
  · -- The task is where it is asked to be.
    rw [if_pos hsame, Option.getD_none, ← hsame]
    refine ⟨.refl _, ⟨before, behind, before, behind, task, htask, rfl, rfl, rfl⟩, ?_⟩
    rw [hqueue, List.getElem?_append_right hbefore.le, hbefore, Nat.sub_self]
    exact beq_iff_eq.mpr htask
  · obtain ⟨before', behind', hrest, hcount', hinsert⟩ := split_of_target (before ++ behind) hlast task
    have herase : (before ++ task :: behind).eraseIdx before.length = before ++ behind := by
      rw [List.eraseIdx_append_of_length_le le_rfl, Nat.sub_self, List.eraseIdx_zero, List.tail_cons]
    have htaken : (before ++ task :: behind)[before.length]? = some task := by
      rw [List.getElem?_append_right le_rfl, Nat.sub_self]
      rfl
    rw [if_neg hsame, hi, Option.bind_some, htaken, Option.map_some]
    dsimp only
    rw [Option.getD_some, herase, hinsert]
    refine ⟨?_, ⟨before, behind, before', behind', task, htask, rfl, rfl, hrest⟩, ?_⟩
    · calc before' ++ task :: behind'
        _ |>.Perm (task :: (before' ++ behind')) := List.perm_middle
        _ |>.Perm (before ++ task :: behind) := by
          rw [← hrest]
          exact List.perm_middle.symm
    · rw [waitingQueue_append, waitingQueue_cons hqueued, List.getElem?_append_right hcount'.le, hcount', Nat.sub_self]
      exact beq_iff_eq.mpr htask

/-- The place that `change_position` computes is the one that is asked for, unless the sum of `POS_CUR` wraps. -/
theorem targetWaitingPos_exact {current count : ℕ} (hcurrent : current < count) (hcount : count < 2 ^ 63) (mode : PositionMode) (pos : Int64) :
    (targetWaitingPos current count pos mode : ℤ) = max 0 (min (mode.requested current count pos.toInt) (count - 1)) ↔
      (mode = .cur → (current : ℤ) + pos.toInt < 2 ^ 63 ∨ count = 1) := by
  have hlo : -2 ^ 63 ≤ pos.toInt := pos.le_toInt
  have hhi : pos.toInt < 2 ^ 63 := pos.toInt_lt
  cases mode with
  | set =>
    simp only [targetWaitingPos, PositionMode.requested, reduceCtorEq, false_implies, iff_true]
    omega
  | fromEnd =>
    simp only [targetWaitingPos, PositionMode.requested, reduceCtorEq, false_implies, iff_true]
    split <;> omega
  | cur =>
    have hwrap : (Int64.ofInt (current + pos.toInt)).toInt =
        if (current : ℤ) + pos.toInt < 2 ^ 63 then (current : ℤ) + pos.toInt else current + pos.toInt - 2 ^ 64 := by
      have hsize : (Int64.size : ℤ) = 2 ^ 64 := rfl
      rw [Int64.toInt_ofInt, Int.bmod_def, hsize]
      split <;> split <;> omega
    simp only [targetWaitingPos, PositionMode.requested, hwrap, true_implies]
    split <;> omega

/-- A call that fails leaves the list as it was. -/
theorem changePositionCall_error {tasks tasks' : List DownloadTask} {gid : Gid} {pos : Int64} {how : Text} {e : ReorderError}
    (h : changePositionCall gid pos how tasks = (tasks', .error e)) : tasks' = tasks := by
  unfold changePositionCall at h
  dsimp only at h
  split at h
  · cases h
    rfl
  · split at h
    · cases h
      rfl
    · cases h

/-- The same for `move_tasks`. -/
theorem moveTasksCall_error {tasks tasks' : List DownloadTask} {gids : List Gid} {target : Gid} {after : Bool} {e : ReorderError}
    (h : moveTasksCall gids target after tasks = (tasks', .error e)) : tasks' = tasks := by
  unfold moveTasksCall at h
  split at h
  · split at h
    · cases h
    · cases h
      rfl
  · cases h
    rfl

/-- The tasks that are moved stand together beside the target. -/
theorem moveTasksCall_ok {tasks tasks' : List DownloadTask} {gids : List Gid} {target : Gid} {after : Bool}
    (h : moveTasksCall gids target after tasks = (tasks', .ok ())) : tasks'.Perm tasks ∧ MovesGroup gids target after tasks tasks' := by
  unfold moveTasksCall at h
  split at h
  · rename_i hany
    split at h
    · rename_i htarget
      injection h with h _
      have hthere : (tasks.filter fun t => !gids.contains t.gid).any (·.gid == target) = true := by
        rw [List.any_filter]
        simpa only [Bool.and_comm] using htarget
      have hsome : (tasks.filter fun t => gids.contains t.gid).isEmpty = false := by
        obtain ⟨t, ht, hin⟩ := List.any_eq_true.mp hany
        exact List.isEmpty_eq_false_iff_exists_mem.mpr ⟨t, List.mem_filter.mpr ⟨ht, hin⟩⟩
      have hplace : (tasks.filter fun t => !gids.contains t.gid).findIdx (·.gid == target) <
          (tasks.filter fun t => !gids.contains t.gid).length := List.findIdx_lt_length_of_exists (List.any_eq_true.mp hthere)
      unfold moveTasks at h
      dsimp only at h
      rw [hsome, hthere, if_neg (by decide), Option.getD_some] at h
      set remaining := tasks.filter fun t => !gids.contains t.gid
      have hat : (remaining[remaining.findIdx (·.gid == target)].gid == target) = true :=
        List.findIdx_getElem (p := fun t : DownloadTask => t.gid == target) (w := hplace)
      subst h
      refine ⟨?_, ⟨_, _, rfl, List.take_append_drop _ _, ?_⟩⟩
      · rw [List.append_assoc]
        refine (List.perm_append_comm_assoc _ _ _).trans ?_
        rw [List.take_append_drop]
        exact List.filter_append_perm _ tasks
      · cases after with
        | true =>
          rw [if_pos rfl, if_pos rfl, List.take_succ_eq_append_getElem hplace, List.getLast?_concat]
          exact hat
        | false =>
          rw [if_neg (by decide), if_neg (by decide), List.drop_eq_getElem_cons hplace, List.head?_cons]
          exact hat
    · cases h
  · cases h

/-- Tasks that exist can be moved beside any task that is not among them. -/
theorem moveTasksCall_succeeds {tasks : List DownloadTask} {gids : List Gid} {target : Gid} (after : Bool)
    (hsome : ∃ t ∈ tasks, t.gid ∈ gids) (htarget : ∃ t ∈ tasks, t.gid = target ∧ target ∉ gids) :
    ∃ tasks', moveTasksCall gids target after tasks = (tasks', .ok ()) := by
  obtain ⟨t, ht, hin⟩ := hsome
  obtain ⟨u, hu, rfl, hout⟩ := htarget
  have hany : (tasks.any fun t => gids.contains t.gid) = true := List.any_eq_true.mpr ⟨t, ht, List.contains_iff_mem.mpr hin⟩
  have hthere : (tasks.any fun t => t.gid == u.gid && !gids.contains t.gid) = true := by
    refine List.any_eq_true.mpr ⟨u, hu, ?_⟩
    rw [beq_self_eq_true, Bool.true_and, Bool.not_eq_true', ← Bool.not_eq_true]
    exact fun h => hout (List.contains_iff_mem.mp h)
  unfold moveTasksCall
  rw [if_pos hany, if_pos hthere]
  exact ⟨_, rfl⟩

/-- What the two calls promise about one list. -/
structure Reorders (tasks : List DownloadTask) (gid : Gid) (mode : PositionMode) (pos : Int64) (gids : List Gid) (target : Gid) (after : Bool) :
    Prop where
  repositions : Repositions tasks gid mode pos
  refused : ∀ gid how tasks' e, changePositionCall gid pos how tasks = (tasks', .error e) → tasks' = tasks
  moves : ∀ tasks', moveTasksCall gids target after tasks = (tasks', .ok ()) → tasks'.Perm tasks ∧ MovesGroup gids target after tasks tasks'
  succeeds : (∃ t ∈ tasks, t.gid ∈ gids) → (∃ t ∈ tasks, t.gid = target ∧ target ∉ gids) →
    ∃ tasks', moveTasksCall gids target after tasks = (tasks', .ok ())
  stays : ∀ tasks' e, moveTasksCall gids target after tasks = (tasks', .error e) → tasks' = tasks

/-- A vector has fewer than `2 ^ 63` elements. The calls reorder the list as they promise if and only if the sum of `POS_CUR` does not wrap, or there is
only one place. -/
theorem reordering_exact {tasks : List DownloadTask} (hlength : tasks.length < 2 ^ 63) {gid : Gid} {current : ℕ}
    (hcurrent : (waitingQueue tasks).findIdx? (·.gid == gid) = some current) (mode : PositionMode) (pos : Int64) (gids : List Gid) (target : Gid)
    (after : Bool) :
    Reorders tasks gid mode pos gids target after ↔
      (mode = .cur → (current : ℤ) + pos.toInt < 2 ^ 63 ∨ (waitingQueue tasks).length = 1) := by
  obtain ⟨hlt, -, -⟩ := List.findIdx?_eq_some_iff_getElem.mp hcurrent
  have hcount : (waitingQueue tasks).length < 2 ^ 63 := (List.length_filter_le _ tasks).trans_lt hlength
  obtain ⟨tasks', hcall, hperm, hmoves, hthere⟩ := changePositionCall_spec hcurrent mode pos
  rw [← targetWaitingPos_exact hlt hcount]
  constructor
  · rintro ⟨⟨_, n, hcall', -, -, -, current', hcurrent', hn⟩, -⟩
    rw [hcurrent, Option.some.injEq] at hcurrent'
    subst hcurrent'
    rw [hcall, Prod.mk.injEq, Except.ok.injEq] at hcall'
    rw [hcall'.2, hn]
  · intro hexact
    exact
      { repositions := ⟨tasks', _, hcall, hperm, hmoves, hthere, current, hcurrent, hexact⟩
        refused := fun _ _ _ _ h => changePositionCall_error h
        moves := fun _ h => moveTasksCall_ok h
        succeeds := moveTasksCall_succeeds after
        stays := fun _ _ h => moveTasksCall_error h }

/-- Tasks that wait, with these gids. -/
def waitingTasks (gids : List Gid) : List DownloadTask := gids.map fun gid => DownloadTask.newHttp gid [] [] Options.empty

/-- The last of three tasks goes to the front, and two tasks go behind the one between them. -/
theorem reordering_exact_back : Reorders (waitingTasks [1, 2, 3]) 3 .cur (-2) [3, 1] 2 true :=
  (reordering_exact (by decide) (show _ = some 2 by decide) .cur (-2) [3, 1] 2 true).mpr fun _ => .inl (by decide)

/-- At the end of the range the sum wraps, and the task goes to the front. -/
theorem reordering_wraps : ¬ ∀ (tasks : List DownloadTask) (gid : Gid) (mode : PositionMode) (pos : Int64) (gids : List Gid) (target : Gid)
    (after : Bool),
    (tasks.map (·.gid)).Nodup → gid ∈ (waitingQueue tasks).map (·.gid) → Reorders tasks gid mode pos gids target after := by
  intro hclaim
  obtain ⟨_, n, hcall, -, -, -, current, hcurrent, hn⟩ :=
    (hclaim (waitingTasks [1, 2]) 2 .cur Int64.maxValue [] 0 true (by decide) (by decide)).repositions
  have hfound : (waitingQueue (waitingTasks [1, 2])).findIdx? (·.gid == 2) = some 1 := by decide
  have hfront : (changePositionCall 2 Int64.maxValue PositionMode.cur.text (waitingTasks [1, 2])).2.toOption = some 0 := by decide
  rw [hcall] at hfront
  cases hfront
  rw [hfound] at hcurrent
  cases hcurrent
  exact absurd hn (by decide)

end Engine

end Risuko
