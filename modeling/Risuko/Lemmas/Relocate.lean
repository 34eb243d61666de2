import Risuko.Engine.Relocate
import Risuko.Lemmas.Calls

/-!
# No worker of a task whose file is moved

What a call of `update_task` has seen of the workers of its gid on its way to `relocate_partial` stays true as long as none is started
(`UpdateOp.Holds`): workers only end, and leave `starting_workers` on the way.
-/

namespace Risuko

namespace Engine

variable {R : OptionReader} {maxConcurrent : ℕ}

/-! ## What a step does to the workers -/

namespace Manager

variable {s s' : Manager} {e : Epoch} {w : Worker}

/-- A worker ends or moves on. It does not come into `starting_workers`, and leaves it only where it clears its entry. -/
theorem workers_of_workerStep {a : WorkerStep} (hs : s.workerStep R e w a = some s') :
    s'.workers = Function.update s.workers e none ∨ ∃ stage, s'.workers = Function.update s.workers e (some { w with stage := stage }) ∧
      (stage.inStarting = true → w.stage.inStarting = true) ∧ (w.stage.inStarting = true → stage.inStarting = true ∨ a = .clear) := by
  cases a with
  | register =>
    simp only [Manager.workerStep, Option.ite_none_right_eq_some] at hs
    obtain ⟨⟨hstage, -⟩, hs⟩ := hs
    cases hs
    exact .inr ⟨.registered, rfl, fun _ => by rw [hstage]; rfl, fun _ => .inl rfl⟩
  | clear =>
    simp only [Manager.workerStep, Option.ite_none_right_eq_some] at hs
    obtain ⟨-, hs⟩ := hs
    cases hs
    exact .inr ⟨.cleared, rfl, by rintro ⟨⟩, fun _ => .inr rfl⟩
  | askToken =>
    simp only [Manager.workerStep, Option.ite_none_right_eq_some] at hs
    obtain ⟨hstage, hs⟩ := hs
    cases hs
    refine .inr ⟨_, rfl, fun hin => ?_, fun hin => ?_⟩
    · split at hin
      · cases hin
      · cases hin
    · rw [hstage] at hin
      cases hin
  | askStatus =>
    simp only [Manager.workerStep, Option.ite_none_right_eq_some] at hs
    obtain ⟨⟨hstage, -⟩, hs⟩ := hs
    have hout : w.stage.inStarting = true → False := by
      rw [hstage]
      rintro ⟨⟩
    split at hs
    · cases hs
      exact .inr ⟨.running, rfl, by rintro ⟨⟩, fun hin => (hout hin).elim⟩
    · cases hs
      exact .inr ⟨.ended, rfl, by rintro ⟨⟩, fun hin => (hout hin).elim⟩
  | endDownload =>
    simp only [Manager.workerStep, Option.ite_none_right_eq_some] at hs
    obtain ⟨hstage, hs⟩ := hs
    cases hs
    refine .inr ⟨.ended, rfl, by rintro ⟨⟩, fun hin => ?_⟩
    rw [hstage] at hin
    cases hin
  | judge =>
    simp only [Manager.workerStep, Option.ite_none_right_eq_some] at hs
    obtain ⟨hstage, hs⟩ := hs
    cases hs
    refine .inr ⟨_, rfl, by rintro ⟨⟩, fun hin => ?_⟩
    rw [hstage] at hin
    cases hin
  | write result done =>
    simp only [Manager.workerStep] at hs
    split at hs
    · rename_i current hstage
      rw [Option.ite_none_right_eq_some] at hs
      obtain ⟨-, hs⟩ := hs
      cases hs
      refine .inr ⟨.written, rfl, by rintro ⟨⟩, fun hin => ?_⟩
      rw [hstage] at hin
      cases hin
    · cases hs
  | leave =>
    simp only [Manager.workerStep, Option.ite_none_right_eq_some] at hs
    obtain ⟨-, hs⟩ := hs
    cases hs
    exact .inl rfl

/-- The starter leaves the workers as they are, but for the one that it starts. -/
theorem workers_of_starterStep {a : StarterStep} (hs : s.starterStep maxConcurrent a = some s') :
    s'.workers = s.workers ∨ a = .publish ∧ ∃ l gid kind, s.starter = some (.publishing l gid kind) ∧
      s'.workers = Function.update s.workers s.nextEpoch (some ⟨gid, kind, .published⟩) := by
  cases a with
  | lock =>
    simp only [starterStep, Option.ite_none_right_eq_some] at hs
    obtain ⟨-, hs⟩ := hs
    cases hs
    exact .inl rfl
  | visit =>
    simp only [starterStep] at hs
    split at hs
    · rename_i l hl
      cases hs
      refine .inl ?_
      unfold visit
      split
      · rfl
      split
      · rfl
      split
      · rfl
      split
      · rfl
      split
      · rfl
      · rfl
    · cases hs
  | publish =>
    simp only [starterStep] at hs
    split at hs
    · rename_i l gid kind hplace
      cases hs
      exact .inr ⟨rfl, l, gid, kind, hplace, rfl⟩
    · cases hs
  | _ =>
    simp only [starterStep] at hs
    split at hs
    · cases hs
      exact .inl rfl
    · cases hs

end Manager

/-! ## What a call has seen -/

namespace UpdateOp

variable {workers workers' : Epoch → Option Worker} {gid : Gid}

/-- What a call that is to move the file of `gid` has seen of the workers. -/
def Holds (workers : Epoch → Option Worker) (gid : Gid) : UpdateOp → Prop
  | lookStarting _ | revert _ | giveUp _ => True
  | lookActive _ => ∀ e w, workers e = some w → w.gid = gid → w.stage.inStarting = false
  | cancel _ e | waitActive _ e | waitStarting _ e true => ∀ e' w, workers e' = some w → w.gid = gid → e' = e
  | waitStarting _ e false => ∀ e' w, workers e' = some w → w.gid = gid → e' = e ∧ w.stage.inStarting = true
  | write _ | release .. | relocate _ | relocating _ => ∀ e w, workers e = some w → w.gid ≠ gid

/-- It stays true while no worker is started and, between the two reads of a wait, none clears its entry. -/
theorem Holds.of_fewer {op : UpdateOp} (h : op.Holds workers gid)
    (hfewer : ∀ e w, workers' e = some w → w.gid = gid → ∃ v, workers e = some v ∧ v.gid = gid ∧
      (w.stage.inStarting = true → v.stage.inStarting = true) ∧
      (v.stage.inStarting = true → w.stage.inStarting = true ∨ ∀ u, op ≠ .waitStarting u e false)) : op.Holds workers' gid := by
  have hone : ∀ e, (∀ e' w, workers e' = some w → w.gid = gid → e' = e) → ∀ e' w, workers' e' = some w → w.gid = gid → e' = e := by
    intro e hbefore e' w hw hgid
    obtain ⟨v, hv, hvgid, -, -⟩ := hfewer e' w hw hgid
    exact hbefore e' v hv hvgid
  have hnone : (∀ e w, workers e = some w → w.gid ≠ gid) → ∀ e w, workers' e = some w → w.gid ≠ gid := by
    intro hbefore e w hw hgid
    obtain ⟨v, hv, hvgid, -, -⟩ := hfewer e w hw hgid
    exact hbefore e v hv hvgid
  cases op with
  | lookStarting u => trivial
  | revert u => trivial
  | giveUp gid => trivial
  | lookActive u =>
    intro e w hw hgid
    obtain ⟨v, hv, hvgid, hback, -⟩ := hfewer e w hw hgid
    exact Bool.eq_false_of_not_eq_true fun hin => Bool.false_ne_true ((h e v hv hvgid).symm.trans (hback hin))
  | cancel u e => exact hone e h
  | waitActive u e => exact hone e h
  | waitStarting u e inActive =>
    cases inActive with
    | true => exact hone e h
    | false =>
      intro e' w hw hgid
      obtain ⟨v, hv, hvgid, -, hleft⟩ := hfewer e' w hw hgid
      obtain ⟨rfl, hin⟩ := h e' v hv hvgid
      exact ⟨rfl, (hleft hin).resolve_right fun hne => hne u rfl⟩
  | write u => exact hnone h
  | release gid moves => exact hnone h
  | relocate gid => exact hnone h
  | relocating gid => exact hnone h

end UpdateOp

namespace Updates

variable {s s' : Updates} {m m' : Manager}

structure Ok (maxConcurrent : ℕ) (s : Updates) : Prop where
  manager : Manager.Ok maxConcurrent s.manager
  holds : ∀ op ∈ s.ops, ∀ gid, op.relocates = some gid → op.Holds s.manager.workers gid

/-- A worker of a gid is found in one of the maps. -/
theorem get_of_worker (h : Manager.Ok maxConcurrent m) {e : Epoch} {w : Worker} (hw : m.workers e = some w) :
    (w.stage.inStarting = true → m.starting.get? w.gid = some e) ∧ (w.stage.inActive = true → m.active.get? w.gid = some e) :=
  ⟨fun hin => (h.starting w.gid e).mpr ⟨w, hw, rfl, hin⟩, fun hin => (h.active w.gid e).mpr ⟨w, hw, rfl, hin⟩⟩

/-- Who is found in one of the maps is the only worker of the gid. -/
theorem only_worker (h : Manager.Ok maxConcurrent m) {gid : Gid} {e : Epoch} (hget : m.starting.get? gid = some e ∨ m.active.get? gid = some e) :
    ∀ e' w, m.workers e' = some w → w.gid = gid → e' = e := by
  have hfound : ∃ w, m.workers e = some w ∧ w.gid = gid := by
    obtain hin | hin := hget
    · obtain ⟨w, hw, hgid, -⟩ := (h.starting gid e).mp hin
      exact ⟨w, hw, hgid⟩
    · obtain ⟨w, hw, hgid, -⟩ := (h.active gid e).mp hin
      exact ⟨w, hw, hgid⟩
  obtain ⟨w, hw, hgid⟩ := hfound
  exact fun e' w' hw' hgid' => h.one e' e w' w hw' hw (hgid'.trans hgid.symm)

/-- What a call does leaves the workers as they are, and what it has seen then holds of them. -/
theorem advance_holds (h : Manager.Ok maxConcurrent m) {op : UpdateOp} {choice : Bool} {next : Option UpdateOp}
    (hholds : ∀ gid, op.relocates = some gid → op.Holds m.workers gid) (hs : op.advance R m choice = some (m', next)) :
    Manager.Ok maxConcurrent m' ∧ m'.workers = m.workers ∧ ∀ op' ∈ next, ∀ gid, op'.relocates = some gid → op'.Holds m.workers gid := by
  have hwrite : ∀ {a : Section} {m₁ : Manager}, m.write R a = some m₁ → a.isWorkers = false → Manager.Ok maxConcurrent m₁ ∧ m₁.workers = m.workers := by
    intro a m₁ hm ha
    obtain ⟨-, heq⟩ := Manager.write_some hm
    exact ⟨h.write ha hm, by rw [heq]⟩
  have hgid : ∀ {u : Updating} {gid : Gid}, (if u.moves then some u.gid else none) = some gid → u.gid = gid := by
    intro u gid hmoves
    rw [Option.ite_none_right_eq_some] at hmoves
    exact Option.some.inj hmoves.2
  cases op with
  | lookStarting u =>
    simp only [UpdateOp.advance] at hs
    split at hs
    · rename_i e hget
      cases hs
      refine ⟨h, rfl, fun op' hop' gid hrel => ?_⟩
      cases hop'
      exact only_worker h (.inl (hgid hrel ▸ hget))
    · rename_i hget
      cases hs
      refine ⟨h, rfl, fun op' hop' gid hrel => ?_⟩
      cases hop'
      refine fun e w hw hwgid => Bool.eq_false_of_not_eq_true fun hin => ?_
      rw [hgid hrel, ← hwgid, (get_of_worker h hw).1 hin] at hget
      cases hget
  | lookActive u =>
    simp only [UpdateOp.advance] at hs
    split at hs
    · rename_i e hget
      cases hs
      refine ⟨h, rfl, fun op' hop' gid hrel => ?_⟩
      cases hop'
      exact only_worker h (.inr (hgid hrel ▸ hget))
    · rename_i hget
      cases hs
      refine ⟨h, rfl, fun op' hop' gid hrel => ?_⟩
      cases hop'
      intro e w hw hwgid
      have hout : w.stage.inStarting = false := hholds gid hrel e w hw hwgid
      have hin := (Manager.Stage.inStarting_or_inActive w.stage).resolve_left (by rw [hout]; exact Bool.false_ne_true)
      rw [hgid hrel, ← hwgid, (get_of_worker h hw).2 hin] at hget
      cases hget
  | cancel u e =>
    cases hs
    refine ⟨h.cancel e, rfl, fun op' hop' gid hrel => ?_⟩
    cases hop'
    exact hholds gid hrel
  | waitActive u e =>
    cases hs
    refine ⟨h, rfl, fun op' hop' gid hrel => ?_⟩
    cases hop'
    have hone : ∀ e' w, m.workers e' = some w → w.gid = gid → e' = e := hholds gid hrel
    cases hread : decide (m.active.get? u.gid = some e) with
    | true => exact hone
    | false =>
      intro e' w hw hwgid
      obtain rfl := hone e' w hw hwgid
      refine ⟨rfl, (Manager.Stage.inStarting_or_inActive w.stage).resolve_right fun hin => ?_⟩
      exact of_decide_eq_false hread (by rw [hgid hrel, ← hwgid]; exact (get_of_worker h hw).2 hin)
  | waitStarting u e inActive =>
    simp only [UpdateOp.advance] at hs
    split at hs
    · rename_i hgone
      obtain ⟨rfl, hget⟩ := hgone
      cases hs
      refine ⟨h, rfl, fun op' hop' gid hrel => ?_⟩
      cases hop'
      intro e' w hw hwgid
      obtain ⟨rfl, hin⟩ : e' = e ∧ w.stage.inStarting = true := hholds gid hrel e' w hw hwgid
      rw [hgid hrel, ← hwgid] at hget
      exact hget ((get_of_worker h hw).1 hin)
    · cases hs
      refine ⟨h, rfl, fun op' hop' gid hrel => ?_⟩
      cases hop'
      cases choice with
      | true => cases hrel
      | false =>
        cases inActive with
        | true => exact hholds gid hrel
        | false => exact fun e' w hw hwgid => (hholds gid hrel e' w hw hwgid).1
  | revert u =>
    obtain ⟨m₁, hm, heq⟩ := Option.map_eq_some_iff.mp hs
    cases heq
    obtain ⟨hok, hsame⟩ := hwrite hm rfl
    refine ⟨hok, hsame, fun op' hop' gid hrel => ?_⟩
    rw [Option.mem_some_iff] at hop'
    rw [← hop'] at hrel
    cases hrel
  | giveUp gid =>
    cases hs
    exact ⟨h.setUpdating _, rfl, fun op' hop' => absurd hop' (Option.not_mem_none op')⟩
  | write u =>
    obtain ⟨m₁, hm, heq⟩ := Option.map_eq_some_iff.mp hs
    cases heq
    obtain ⟨hok, hsame⟩ := hwrite hm rfl
    refine ⟨hok, hsame, fun op' hop' gid hrel => ?_⟩
    cases hop'
    exact hholds gid hrel
  | release gid moves =>
    cases hs
    refine ⟨h.setUpdating _, rfl, fun op' hop' gid' hrel => ?_⟩
    cases moves with
    | false => cases hop'
    | true =>
      cases hop'
      exact hholds gid' hrel
  | relocate gid =>
    cases hs
    refine ⟨h, rfl, fun op' hop' gid' hrel => ?_⟩
    cases choice with
    | false => cases hop'
    | true =>
      cases hop'
      exact hholds gid' hrel
  | relocating gid =>
    cases hs
    exact ⟨h, rfl, fun op' hop' => absurd hop' (Option.not_mem_none op')⟩

/-- An edit that moves the file of a task and restarts no worker is one of a task that is not Active. -/
theorem not_active_of_moves (h : Manager.Ok maxConcurrent m) {gid : Gid} {patch : TaskPatch} {privateTorrent : Bool} {edited : DownloadTask}
    (hupdate : (m.list.tasks.find? (·.gid == gid)).bind (updateTask R patch privateTorrent) = some (edited, none))
    (hmoves : movesPartial R gid patch m.list.tasks = true) : hasActive m.list.tasks gid = false := by
  refine Bool.eq_false_of_not_eq_true fun hactive => ?_
  have hfound := hasActive_found h.distinct hactive
  unfold movesPartial at hmoves
  cases hfind : m.list.tasks.find? (·.gid == gid) with
  | none =>
    rw [hfind] at hupdate
    cases hupdate
  | some t =>
    rw [hfind] at hupdate hfound hmoves
    rw [Option.any_some] at hfound hmoves
    rw [Option.bind_some, updateTask] at hupdate
    obtain ⟨hpath, hkind⟩ := Bool.and_eq_true_iff.mp hmoves
    have hrestart : needsRestart R t patch = true := by
      unfold needsRestart
      dsimp only
      rw [hfound, hkind, hpath, Bool.or_true, Bool.true_or]
      rfl
    rw [hrestart] at hupdate
    split at hupdate
    · cases hupdate
    · cases hupdate

theorem begin_holds (h : Manager.Ok maxConcurrent m) {gid : Gid} {patch : TaskPatch} {privateTorrent : Bool} {ops : List UpdateOp}
    {next : Option UpdateOp} (hclear : disturbs R ⟨m, ops⟩ (.update gid patch privateTorrent) = false)
    (hs : beginUpdate R m gid patch privateTorrent = some (m', next)) :
    Manager.Ok maxConcurrent m' ∧ m'.workers = m.workers ∧ ∀ op' ∈ next, ∀ gid, op'.relocates = some gid → op'.Holds m.workers gid := by
  simp only [beginUpdate] at hs
  split at hs
  · rw [Option.ite_none_right_eq_some] at hs
    obtain ⟨-, hs⟩ := hs
    cases hs
    exact ⟨h, rfl, fun op' hop' => absurd hop' (Option.not_mem_none op')⟩
  · rename_i edited hupdate
    obtain ⟨m₁, hm, heq⟩ := Option.map_eq_some_iff.mp hs
    cases heq
    refine ⟨h.write rfl hm, by rw [(Manager.write_some hm).2], fun op' hop' gid' hrel => ?_⟩
    rw [Option.mem_def, Option.ite_none_right_eq_some] at hop'
    obtain ⟨hmoves, heq⟩ := hop'
    cases heq
    cases hrel
    -- The task is not Active, and so no worker of it is there.
    have hactive := not_active_of_moves h hupdate hmoves
    have hidle : ¬ gid ∈ m.busyGids := by
      intro hbusy
      have hfound : ((m.starting.get? gid).isSome || (m.active.get? gid).isSome) = true := by
        obtain ⟨e, he⟩ | ⟨e, he⟩ := Manager.mem_busyGids.mp hbusy
        · rw [he, Option.isSome_some, Bool.or_true]
        · rw [he, Option.isSome_some, Bool.true_or]
      unfold disturbs at hclear
      dsimp only at hclear
      rw [hupdate, hmoves, hactive, hfound] at hclear
      cases hclear
    exact fun e w hw hwgid => hidle (h.mem_busyGids.mpr ⟨e, w, hw, hwgid⟩)
  · rename_i edited staged hupdate
    obtain ⟨m₁, hm, heq⟩ := Option.map_eq_some_iff.mp hs
    cases heq
    refine ⟨(h.write rfl hm).setUpdating _, ?_, fun op' hop' gid' hrel => ?_⟩
    · change m₁.workers = m.workers
      rw [(Manager.write_some hm).2]
    · cases hop'
      trivial

/-- Every step keeps it, if it does not disturb a task whose file is to be moved. -/
theorem Ok.step (h : s.Ok maxConcurrent) {a : Action} (hclear : s.disturbs R a = false) (hs : s.step R maxConcurrent a = some s') :
    s'.Ok maxConcurrent := by
  cases a with
  | update gid patch privateTorrent =>
    obtain ⟨⟨m, next⟩, hbegin, rfl⟩ := Option.map_eq_some_iff.mp hs
    obtain ⟨hok, hsame, hnext⟩ := begin_holds h.manager hclear hbegin
    refine ⟨hok, fun op hop gid hrel => ?_⟩
    change op.Holds m.workers gid
    rw [hsame]
    obtain hold | hnew := List.mem_append.mp hop
    · exact h.holds op hold gid hrel
    · exact hnext op (Option.mem_toList.mp hnew) gid hrel
  | advance i choice =>
    obtain ⟨op, hi, hs⟩ := Option.bind_eq_some_iff.mp hs
    obtain ⟨⟨m, next⟩, hadvance, rfl⟩ := Option.map_eq_some_iff.mp hs
    obtain ⟨hok, hsame, hnext⟩ := advance_holds h.manager (h.holds op (List.mem_of_getElem? hi)) hadvance
    refine ⟨hok, fun op' hop' gid hrel => ?_⟩
    change op'.Holds m.workers gid
    rw [hsame]
    obtain hold | hnew := List.mem_append.mp hop'
    · exact h.holds op' (List.mem_of_mem_eraseIdx hold) gid hrel
    · exact hnext op' (Option.mem_toList.mp hnew) gid hrel
  | other a =>
    simp only [Updates.step, Option.ite_none_right_eq_some, Bool.and_eq_true, Bool.not_eq_true'] at hs
    obtain ⟨⟨hworkers, -⟩, hs⟩ := hs
    obtain ⟨m, hm, rfl⟩ := Option.map_eq_some_iff.mp hs
    refine ⟨h.manager.write hworkers hm, fun op hop gid hrel => ?_⟩
    change op.Holds m.workers gid
    rw [(Manager.write_some hm).2]
    exact h.holds op hop gid hrel
  | cancel e =>
    cases hs
    exact ⟨h.manager.cancel e, h.holds⟩
  | starter a =>
    obtain ⟨m, hm, rfl⟩ := Option.map_eq_some_iff.mp hs
    refine ⟨h.manager.starterStep hm, fun op hop gid hrel => ?_⟩
    change op.Holds m.workers gid
    obtain hsame | ⟨rfl, l, gid', kind, hplace, hworkers⟩ := Manager.workers_of_starterStep hm
    · rw [hsame]
      exact h.holds op hop gid hrel
    · -- The worker that starts is of another gid.
      have hother : gid' ≠ gid := by
        rintro rfl
        unfold disturbs at hclear
        dsimp only at hclear
        rw [hplace] at hclear
        dsimp only at hclear
        rw [List.any_eq_false] at hclear
        exact hclear op hop (decide_eq_true hrel)
      rw [hworkers]
      refine (h.holds op hop gid hrel).of_fewer fun e w hw hwgid => ?_
      rw [Function.update_apply] at hw
      split at hw
      · cases hw
        exact absurd hwgid hother
      · exact ⟨w, hw, hwgid, id, .inl⟩
  | worker e a =>
    obtain ⟨m, hm, rfl⟩ := Option.map_eq_some_iff.mp hs
    obtain ⟨w, hw, hstep⟩ := Option.bind_eq_some_iff.mp hm
    refine ⟨h.manager.workerStep hw hstep, fun op hop gid hrel => (h.holds op hop gid hrel).of_fewer fun e' w' hw' hwgid => ?_⟩
    obtain hended | ⟨stage, hworkers, hback, hleft⟩ := Manager.workers_of_workerStep hstep
    · change m.workers e' = some w' at hw'
      rw [hended, Function.update_apply] at hw'
      split at hw'
      · cases hw'
      · exact ⟨w', hw', hwgid, id, .inl⟩
    · change m.workers e' = some w' at hw'
      rw [hworkers, Function.update_apply] at hw'
      split at hw'
      · rename_i he
        cases hw'
        subst he
        refine ⟨w, hw, hwgid, hback, fun hin => (hleft hin).imp_right ?_⟩
        -- It clears its entry, and so no wait for it is between its two reads.
        rintro rfl u rfl
        unfold disturbs at hclear
        dsimp only at hclear
        rw [List.any_eq_false] at hclear
        refine hclear _ hop ?_
        unfold UpdateOp.relocates at hrel
        dsimp only at hrel ⊢
        rw [Option.ite_none_right_eq_some] at hrel
        rw [hrel.1, decide_eq_true rfl]
        rfl
      · exact ⟨w', hw', hwgid, id, .inl⟩

/-- So it holds in every run without such steps. -/
theorem ReachableUndisturbed.ok (h : s.ReachableUndisturbed R maxConcurrent) : s.Ok maxConcurrent := by
  refine Reach.invariant (fun s hs => ?_) (fun s s' hok hs => ?_) h
  · obtain ⟨tasks, epoch, hnodup, rfl⟩ := hs
    exact ⟨Manager.ok_start hnodup epoch, fun op hop => absurd hop List.not_mem_nil⟩
  · obtain ⟨a, hclear, hs⟩ := hs
    exact hok.step hclear hs

end Updates

end Engine

end Risuko
