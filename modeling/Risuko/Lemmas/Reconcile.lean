import Risuko.Engine.Sections
import Risuko.Lib.Slots

/-!
# Calls of `reconcile_active_set` as rounds

Both loops of a call set the status of some queued tasks (`setStatus`). So the queue and the startable tasks stay as they are, and a call is a round
of the ranking of the queue (`round_reconcile`).
-/

namespace Risuko

namespace Engine

variable {tasks : List DownloadTask} {maxConcurrent : ℕ} {updating : Gid → Bool}
variable {gids : List Gid} {status : TaskStatus} {gid : Gid}

/-- The list with another status for the tasks with these gids. -/
def setStatus (gids : List Gid) (status : TaskStatus) (tasks : List DownloadTask) : List DownloadTask :=
  tasks.map fun t => if gids.contains t.gid then { t with status := status } else t

theorem setStatus_cons (gid : Gid) (gids : List Gid) (status : TaskStatus) :
    setStatus (gid :: gids) status tasks = setStatus gids status (setStatus [gid] status tasks) := by
  unfold setStatus
  rw [List.map_map]
  refine List.map_congr_left ?_
  intro t _
  by_cases hgid : t.gid = gid
  · simp [hgid]
  · simp [hgid]

theorem setStatus_of_not_mem (status : TaskStatus) (h : ∀ t ∈ tasks, t.gid ∉ gids) : setStatus gids status tasks = tasks := by
  unfold setStatus
  conv_rhs => rw [← List.map_id tasks]
  refine List.map_congr_left ?_
  intro t ht
  rw [if_neg (by simpa using h t ht)]
  rfl

theorem gids_setStatus (gids : List Gid) (status : TaskStatus) : (setStatus gids status tasks).map (·.gid) = tasks.map (·.gid) := by
  unfold setStatus
  rw [List.map_map]
  refine List.map_congr_left ?_
  intro t _
  dsimp only [Function.comp]
  split <;> rfl

/-- `editTask` with a distinct gid. -/
theorem editTask_preempt {task : DownloadTask} (hn : (tasks.map (·.gid)).Nodup) (ht : task ∈ tasks) (hactive : task.status = .active) :
    editTask task.gid preempt tasks = some (setStatus [task.gid] .waiting tasks) := by
  induction tasks with
  | nil => cases ht
  | cons first rest ih =>
    obtain ⟨hfirst, hrest⟩ := List.nodup_cons.mp hn
    unfold editTask editFirst
    rcases List.mem_cons.mp ht with rfl | hmem
    · rw [if_pos (by simp), preempt, if_pos hactive]
      have hsame : setStatus [task.gid] .waiting rest = rest := by
        refine setStatus_of_not_mem _ ?_
        intro t htrest hgid
        rw [List.mem_singleton] at hgid
        exact hfirst (List.mem_map.mpr ⟨t, htrest, hgid⟩)
      simp only [setStatus, List.map_cons] at hsame ⊢
      rw [hsame]
      simp
    · have hne : first.gid ≠ task.gid := fun he => hfirst (List.mem_map.mpr ⟨task, hmem, he.symm⟩)
      have hedit := ih hrest hmem
      unfold editTask at hedit
      rw [if_neg (by simpa using hne), hedit]
      simp [setStatus, hne]

/-- The tasks that the loop of `reconcile_active_set` preempts: the Active ones behind the first ones. -/
theorem toPreempt_eq (rank : ℕ) :
    toPreempt maxConcurrent rank tasks =
      (((tasks.filter (·.isQueued)).drop (maxConcurrent - rank)).filter (·.status == .active)).map (·.gid) := by
  induction tasks generalizing rank with
  | nil => simp [toPreempt]
  | cons task rest ih =>
    unfold toPreempt
    by_cases hq : task.isQueued
    · rw [if_pos hq, List.filter_cons_of_pos hq, ih (rank + 1)]
      by_cases hrank : maxConcurrent < rank + 1
      · have hzero : maxConcurrent - rank = 0 := by omega
        have hzero' : maxConcurrent - (rank + 1) = 0 := by omega
        rw [hzero, hzero', List.drop_zero, List.drop_zero]
        by_cases hactive : task.status = .active
        · simp [hrank, hactive]
        · simp [hactive]
      · rw [if_neg (by simp [hrank])]
        obtain ⟨n, hn⟩ : ∃ n, maxConcurrent - rank = n + 1 := ⟨maxConcurrent - rank - 1, by omega⟩
        rw [hn, List.drop_succ_cons]
        congr 3
        omega
    · rw [if_neg hq, List.filter_cons_of_neg hq, ih rank]

/-- Preempting Active tasks one after the other. -/
theorem foldl_preempt (hn : (tasks.map (·.gid)).Nodup) (hg : gids.Nodup)
    (ha : ∀ gid ∈ gids, ∃ task ∈ tasks, task.gid = gid ∧ task.status = .active) :
    gids.foldl (fun tasks gid => (editTask gid preempt tasks).getD tasks) tasks = setStatus gids .waiting tasks := by
  induction gids generalizing tasks with
  | nil => exact (setStatus_of_not_mem _ fun t _ => List.not_mem_nil).symm
  | cons gid rest ih =>
    obtain ⟨hgid, hrest⟩ := List.nodup_cons.mp hg
    obtain ⟨task, ht, rfl, hactive⟩ := ha gid List.mem_cons_self
    rw [List.foldl_cons, editTask_preempt hn ht hactive, Option.getD_some, setStatus_cons task.gid rest]
    refine ih (by rwa [gids_setStatus]) hrest ?_
    intro other hother
    obtain ⟨t, htmem, rfl, htactive⟩ := ha other (List.mem_cons_of_mem _ hother)
    have hne : t.gid ≠ task.gid := fun he => hgid (he ▸ hother)
    exact ⟨t, List.mem_map.mpr ⟨t, htmem, by simp [hne]⟩, rfl, htactive⟩

/-- Whether the loop of `try_start_next_unlocked` starts a task that it comes to. -/
def startsNow (skip : Gid → Bool) (task : DownloadTask) : Bool := task.status == .waiting && task.hasData && !skip task.gid

theorem start_eq {skip : Gid → Bool} (task : DownloadTask) :
    (if skip task.gid then none else start task) = if startsNow skip task then some { task with status := .active } else none := by
  unfold startsNow start
  by_cases hskip : skip task.gid
  · simp [hskip]
  · by_cases hwaiting : task.status = .waiting
    · simp [hskip, hwaiting]
    · simp [hskip, hwaiting]

/-- The tasks that the loop starts, and the list that it leaves. -/
theorem startWaiting_eq {skip : Gid → Bool} (slots : ℕ) (hn : (tasks.map (·.gid)).Nodup) :
    startWaiting skip slots tasks =
      (((tasks.filter (startsNow skip)).take slots).map (·.gid), setStatus (((tasks.filter (startsNow skip)).take slots).map (·.gid)) .active
          tasks) := by
  induction tasks generalizing slots with
  | nil => cases slots <;> rfl
  | cons task rest ih =>
    obtain ⟨hfirst, hrest⟩ := List.nodup_cons.mp hn
    cases slots with
    | zero =>
      rw [List.take_zero, List.map_nil, setStatus_of_not_mem _ fun t _ => List.not_mem_nil]
      rfl
    | succ slots =>
      unfold startWaiting
      rw [start_eq]
      by_cases hstarts : startsNow skip task
      · rw [if_pos hstarts, List.filter_cons_of_pos hstarts, List.take_succ_cons, List.map_cons, ih slots hrest]
        dsimp only
        congr 1
        simp only [setStatus, List.map_cons]
        rw [if_pos (by simp)]
        congr 1
        refine List.map_congr_left ?_
        intro t ht
        have hne : t.gid ≠ task.gid := fun he => hfirst (List.mem_map.mpr ⟨t, ht, he⟩)
        simp [hne]
      · rw [if_neg hstarts, List.filter_cons_of_neg hstarts, ih (slots + 1) hrest]
        dsimp only
        congr 1
        have hnot : task.gid ∉ ((rest.filter (startsNow skip)).take (slots + 1)).map (·.gid) := by
          intro hmem
          obtain ⟨t, ht, hgid⟩ := List.mem_map.mp hmem
          exact hfirst (List.mem_map.mpr ⟨t, (List.mem_filter.mp (List.mem_of_mem_take ht)).1, hgid⟩)
        simp only [setStatus, List.map_cons]
        rw [if_neg (by simpa using hnot)]

/-! ## The ranking of the queue -/

/-- The ranking is that of the tasks. -/
structure Describes (r : Ranking Gid) (updating : Gid → Bool) (tasks : List DownloadTask) : Prop where
  distinct : (tasks.map (·.gid)).Nodup
  queue : r.queue = (tasks.filter (·.isQueued)).map (·.gid)
  able : ∀ task ∈ tasks, r.able task.gid = task.startable updating

variable {r : Ranking Gid} {task task' : DownloadTask}

theorem mem_setStatus (updating : Gid → Bool) (h : task' ∈ setStatus gids status tasks) :
    ∃ task ∈ tasks, task'.gid = task.gid ∧ task'.kind = task.kind ∧ task'.startable updating = task.startable updating ∧
      task'.status = if task.gid ∈ gids then status else task.status := by
  obtain ⟨task, ht, rfl⟩ := List.mem_map.mp h
  refine ⟨task, ht, ?_⟩
  by_cases hgid : task.gid ∈ gids
  · simp [hgid, DownloadTask.startable, DownloadTask.hasData]
  · simp [hgid]

theorem mem_setStatus_of_mem (gids : List Gid) (status : TaskStatus) (h : task ∈ tasks) :
    ∃ task' ∈ setStatus gids status tasks, task'.gid = task.gid ∧ task'.kind = task.kind ∧
      task'.status = if task.gid ∈ gids then status else task.status := by
  refine ⟨_, List.mem_map_of_mem h, ?_⟩
  by_cases hgid : task.gid ∈ gids
  · simp [hgid]
  · simp [hgid]

theorem queue_setStatus (hs : status = .active ∨ status = .waiting)
    (hg : ∀ task ∈ tasks, task.gid ∈ gids → task.isQueued = true) :
    ((setStatus gids status tasks).filter (·.isQueued)).map (·.gid) = (tasks.filter (·.isQueued)).map (·.gid) := by
  unfold setStatus
  rw [List.filter_map, List.map_map]
  have hfilter : tasks.filter ((fun t => t.isQueued) ∘ fun t => if gids.contains t.gid then { t with status := status } else t) =
      tasks.filter (·.isQueued) := by
    refine List.filter_congr ?_
    intro t ht
    dsimp only [Function.comp]
    split
    · rename_i hgid
      have hqueued := hg t ht (List.contains_iff_mem.mp hgid)
      have hkind : t.kind ≠ .torrent := by
        intro hk
        simp [DownloadTask.isQueued, hk] at hqueued
      rw [hqueued]
      rcases hs with rfl | rfl <;> simp [DownloadTask.isQueued, hkind]
    · rfl
  rw [hfilter]
  refine List.map_congr_left ?_
  intro t _
  dsimp only [Function.comp]
  split <;> rfl

theorem Describes.setStatus (h : Describes r updating tasks) (hs : status = .active ∨ status = .waiting)
    (hg : ∀ task ∈ tasks, task.gid ∈ gids → task.isQueued = true) : Describes r updating (setStatus gids status tasks) := by
  refine ⟨by rw [gids_setStatus]; exact h.distinct, by rw [queue_setStatus hs hg]; exact h.queue, ?_⟩
  intro task' ht'
  obtain ⟨task, ht, hgid, _, hstartable, _⟩ := mem_setStatus updating ht'
  rw [hgid, hstartable]
  exact h.able task ht

theorem Describes.unique (h : Describes r updating tasks) (ht : task ∈ tasks) (ht' : task' ∈ tasks) (hgid : task.gid = task'.gid) : task = task' :=
  List.inj_on_of_nodup_map h.distinct ht ht' hgid

theorem mem_activeGids : gid ∈ activeGids tasks ↔ ∃ task ∈ tasks, task.gid = gid ∧ task.kind ≠ .torrent ∧ task.status = .active := by
  unfold activeGids
  constructor
  · intro h
    obtain ⟨task, ht, hgid⟩ := List.mem_map.mp h
    obtain ⟨hmem, hactive⟩ := List.mem_filter.mp ht
    exact ⟨task, hmem, hgid, by simpa using hactive⟩
  · rintro ⟨task, ht, hgid, hactive⟩
    exact List.mem_map.mpr ⟨task, List.mem_filter.mpr ⟨ht, by simpa using hactive⟩, hgid⟩

theorem activeGids_sublist (h : Describes r updating tasks) : (activeGids tasks).Sublist r.queue := by
  rw [h.queue]
  refine List.Sublist.map _ ?_
  have hsub : tasks.filter (fun t => t.kind != .torrent && t.status == .active) =
      (tasks.filter (·.isQueued)).filter fun t => t.kind != .torrent && t.status == .active := by
    rw [List.filter_filter]
    refine List.filter_congr ?_
    intro t _
    cases hactive : t.status == .active
    · simp
    · simp [DownloadTask.isQueued, hactive]
  rw [hsub]
  exact List.filter_sublist

theorem mem_queue (h : Describes r updating tasks) (hg : gid ∈ r.queue) : ∃ task ∈ tasks, task.gid = gid ∧ task.isQueued = true := by
  rw [h.queue] at hg
  obtain ⟨task, ht, hgid⟩ := List.mem_map.mp hg
  obtain ⟨hmem, hqueued⟩ := List.mem_filter.mp ht
  exact ⟨task, hmem, hgid, hqueued⟩

/-- What `reconcile_active_set` preempts: those that run without being ranked. -/
theorem mem_toPreempt (h : Describes r updating tasks) :
    gid ∈ toPreempt maxConcurrent 0 tasks ↔ gid ∈ activeGids tasks ∧ gid ∉ r.queue.take maxConcurrent := by
  rw [toPreempt_eq, Nat.sub_zero]
  have hdrop : r.queue.drop maxConcurrent = ((tasks.filter (·.isQueued)).drop maxConcurrent).map (·.gid) := by
    rw [h.queue, List.map_drop]
  constructor
  · intro hmem
    obtain ⟨task, ht, rfl⟩ := List.mem_map.mp hmem
    obtain ⟨hbehind, hactive⟩ := List.mem_filter.mp ht
    obtain ⟨htask, hqueued⟩ := List.mem_filter.mp (List.mem_of_mem_drop hbehind)
    refine ⟨mem_activeGids.mpr ⟨task, htask, rfl, ?_, beq_iff_eq.mp hactive⟩, ?_⟩
    · intro hk
      simp [DownloadTask.isQueued, hk] at hqueued
    · intro htake
      refine List.disjoint_take_drop r.nodup (Nat.le_refl maxConcurrent) htake ?_
      rw [hdrop]
      exact List.mem_map_of_mem hbehind
  · rintro ⟨hactive, hranked⟩
    have hqueue := (activeGids_sublist h).subset hactive
    rw [← List.take_append_drop maxConcurrent r.queue] at hqueue
    rcases List.mem_append.mp hqueue with htake | hbehind
    · exact absurd htake hranked
    · rw [hdrop] at hbehind
      obtain ⟨task, ht, hgid⟩ := List.mem_map.mp hbehind
      obtain ⟨running, hrunning, hgid', _, hstatus⟩ := mem_activeGids.mp hactive
      have hsame : task = running :=
        h.unique (List.mem_filter.mp (List.mem_of_mem_drop ht)).1 hrunning (hgid.trans hgid'.symm)
      exact List.mem_map.mpr ⟨task, List.mem_filter.mpr ⟨ht, by rw [hsame, hstatus]; rfl⟩, hgid⟩

theorem nodup_toPreempt (h : Describes r updating tasks) : (toPreempt maxConcurrent 0 tasks).Nodup := by
  rw [toPreempt_eq]
  refine List.Nodup.sublist (List.Sublist.map _ ?_) h.distinct
  exact (List.filter_sublist.trans (List.drop_sublist _ _)).trans List.filter_sublist

theorem queued_of_mem_activeGids (h : Describes r updating tasks) (ht : task ∈ tasks) (ha : task.gid ∈ activeGids tasks) :
    task.isQueued = true ∧ task.status = .active := by
  obtain ⟨running, hrunning, hgid, hkind, hstatus⟩ := mem_activeGids.mp ha
  have hsame := h.unique hrunning ht hgid
  subst hsame
  exact ⟨by simp [DownloadTask.isQueued, hkind, hstatus], hstatus⟩

/-! ## One call -/

theorem foldl_preempt_toPreempt (h : Describes r updating tasks) :
    (toPreempt maxConcurrent 0 tasks).foldl (fun tasks gid => (editTask gid preempt tasks).getD tasks) tasks =
      setStatus (toPreempt maxConcurrent 0 tasks) .waiting tasks := by
  refine foldl_preempt h.distinct (nodup_toPreempt h) ?_
  intro gid hgid
  obtain ⟨task, ht, hsame, _, hactive⟩ := mem_activeGids.mp ((mem_toPreempt h).mp hgid).1
  exact ⟨task, ht, hsame, hactive⟩

theorem Describes.preempted (h : Describes r updating tasks) (maxConcurrent : ℕ) :
    Describes r updating (Engine.setStatus (toPreempt maxConcurrent 0 tasks) .waiting tasks) := by
  refine h.setStatus (.inr rfl) ?_
  intro task ht hgid
  exact (queued_of_mem_activeGids h ht ((mem_toPreempt h).mp hgid).1).1

theorem mem_activeGids_preempted (h : Describes r updating tasks) (maxConcurrent : ℕ) (gid : Gid) :
    gid ∈ activeGids (setStatus (toPreempt maxConcurrent 0 tasks) .waiting tasks) ↔ gid ∈ activeGids tasks ∧ gid ∈ r.queue.take maxConcurrent := by
  constructor
  · intro hmem
    obtain ⟨left, hleft, rfl, hkind, hactive⟩ := mem_activeGids.mp hmem
    obtain ⟨task, ht, hgid, hkind', _, hstatus⟩ := mem_setStatus updating hleft
    by_cases hpreempted : task.gid ∈ toPreempt maxConcurrent 0 tasks
    · rw [if_pos hpreempted, hactive] at hstatus
      cases hstatus
    · rw [if_neg hpreempted, hactive] at hstatus
      have hrunning : task.gid ∈ activeGids tasks := mem_activeGids.mpr ⟨task, ht, rfl, hkind' ▸ hkind, hstatus.symm⟩
      rw [hgid]
      refine ⟨hrunning, ?_⟩
      by_contra hranked
      exact hpreempted ((mem_toPreempt h).mpr ⟨hrunning, hranked⟩)
  · rintro ⟨hrunning, hranked⟩
    obtain ⟨task, ht, rfl, hkind, hactive⟩ := mem_activeGids.mp hrunning
    obtain ⟨left, hleft, hgid, hkind', hstatus⟩ := mem_setStatus_of_mem (toPreempt maxConcurrent 0 tasks) .waiting ht
    have hnot : task.gid ∉ toPreempt maxConcurrent 0 tasks := fun hmem => ((mem_toPreempt h).mp hmem).2 hranked
    rw [if_neg hnot, hactive] at hstatus
    exact mem_activeGids.mpr ⟨left, hleft, hgid, hkind' ▸ hkind, hstatus⟩

theorem not_torrent_of_hasData (h : task.hasData = true) : task.kind ≠ .torrent := by
  intro hk
  simp [DownloadTask.hasData, hk] at h

/-- Those that the second loop can start are the able members of the queue that are not busy. -/
theorem startsNow_eq (h : Describes r updating tasks) {busy : List Gid} (hb : ∀ gid ∈ activeGids tasks, gid ∈ busy) :
    (tasks.filter (startsNow fun gid => busy.contains gid || updating gid)).map (·.gid) =
      (r.queue.filter r.able).filter fun gid => !busy.contains gid := by
  rw [h.queue, List.filter_map, List.filter_map, List.filter_filter, List.filter_filter]
  congr 1
  refine List.filter_congr ?_
  intro task ht
  dsimp only [Function.comp]
  rw [h.able task ht]
  unfold startsNow DownloadTask.startable
  by_cases hbusy : task.gid ∈ busy
  · simp [hbusy]
  · by_cases hdata : task.hasData
    · have hkind := not_torrent_of_hasData hdata
      have hactive : task.status ≠ .active := fun ha => hbusy (hb _ (mem_activeGids.mpr ⟨task, ht, rfl, hkind, ha⟩))
      have hqueued : task.isQueued = (task.status == .waiting) := by
        simp [DownloadTask.isQueued, hkind, beq_eq_false_iff_ne.mpr hactive]
      simp [hbusy, hdata, hqueued, Bool.and_comm]
    · simp [hdata]

theorem mem_activeGids_started (hg : ∀ gid ∈ gids, ∃ task ∈ tasks, task.gid = gid ∧ task.kind ≠ .torrent) :
    gid ∈ activeGids (setStatus gids .active tasks) ↔ gid ∈ activeGids tasks ∨ gid ∈ gids := by
  constructor
  · intro hmem
    obtain ⟨started, hstarted, rfl, hkind, hactive⟩ := mem_activeGids.mp hmem
    obtain ⟨task, ht, hgid, hkind', _, hstatus⟩ := mem_setStatus (fun _ => false) hstarted
    rw [hgid]
    by_cases hnew : task.gid ∈ gids
    · exact .inr hnew
    · rw [if_neg hnew, hactive] at hstatus
      exact .inl (mem_activeGids.mpr ⟨task, ht, rfl, hkind' ▸ hkind, hstatus.symm⟩)
  · intro hmem
    have hfound : ∃ task ∈ tasks, task.gid = gid ∧ task.kind ≠ .torrent ∧ (task.gid ∈ gids ∨ task.status = .active) := by
      rcases hmem with hold | hnew
      · obtain ⟨task, ht, hgid, hkind, hactive⟩ := mem_activeGids.mp hold
        exact ⟨task, ht, hgid, hkind, .inr hactive⟩
      · obtain ⟨task, ht, hgid, hkind⟩ := hg gid hnew
        exact ⟨task, ht, hgid, hkind, .inl (hgid ▸ hnew)⟩
    obtain ⟨task, ht, rfl, hkind, hactive⟩ := hfound
    obtain ⟨started, hstarted, hgid, hkind', hstatus⟩ := mem_setStatus_of_mem gids .active ht
    refine mem_activeGids.mpr ⟨started, hstarted, hgid, hkind' ▸ hkind, ?_⟩
    rw [hstatus]
    split
    · rfl
    · rename_i hnew
      exact hactive.resolve_left hnew

/-- A call is a round. -/
theorem round_reconcile (h : Describes r updating tasks) (exited : Gid → Bool) (lingering : List Gid) :
    Describes r updating (reconcile maxConcurrent updating exited tasks lingering).tasks ∧
      (reconcile maxConcurrent updating exited tasks lingering).started = r.starts maxConcurrent
          (reconcile maxConcurrent updating exited tasks lingering).busy ∧
        r.Round maxConcurrent (activeGids tasks) (reconcile maxConcurrent updating exited tasks lingering).busy
          (activeGids (reconcile maxConcurrent updating exited tasks lingering).tasks) := by
  unfold reconcile
  dsimp only
  rw [foldl_preempt_toPreempt h]
  have hleft := h.preempted maxConcurrent
  have hactive := mem_activeGids_preempted h maxConcurrent
  set left := setStatus (toPreempt maxConcurrent 0 tasks) .waiting tasks
  set busy := (activeGids left ++ (lingering ++ toPreempt maxConcurrent 0 tasks).filter (!exited ·)).dedup with hbusy
  have hkeep : ∀ gid ∈ activeGids left, gid ∈ busy := by
    intro gid hgid
    rw [hbusy]
    exact List.mem_dedup.mpr (List.mem_append_left _ hgid)
  rw [startWaiting_eq _ hleft.distinct, List.map_take, startsNow_eq hleft hkeep]
  dsimp only
  have hmem : ∀ gid ∈ r.starts maxConcurrent busy, ∃ task ∈ left, task.gid = gid ∧ task.isQueued = true ∧ task.kind ≠ .torrent := by
    intro gid hgid
    obtain ⟨hqueue, hable⟩ := List.mem_filter.mp (List.mem_filter.mp (List.mem_of_mem_take hgid)).1
    obtain ⟨task, ht, rfl, hqueued⟩ := mem_queue hleft hqueue
    rw [hleft.able task ht] at hable
    exact ⟨task, ht, rfl, hqueued, not_torrent_of_hasData (Bool.and_eq_true_iff.mp hable).1⟩
  have hdescribes : Describes r updating (setStatus (r.starts maxConcurrent busy) .active left) := by
    refine hleft.setStatus (.inl rfl) ?_
    intro task ht hgid
    obtain ⟨other, hother, hsame, hqueued, _⟩ := hmem _ hgid
    rwa [← hleft.unique hother ht hsame]
  refine ⟨hdescribes, rfl, ?_⟩
  refine ⟨List.nodup_dedup _, fun gid hrunning hranked => hkeep gid ((hactive gid).mpr ⟨hrunning, hranked⟩), activeGids_sublist hdescribes, ?_⟩
  intro gid
  refine (mem_activeGids_started ?_).trans ?_
  · intro gid hgid
    obtain ⟨task, ht, hsame, _, hkind⟩ := hmem gid hgid
    exact ⟨task, ht, hsame, hkind⟩
  · rw [hactive]
    exact Iff.rfl

end Engine

end Risuko
