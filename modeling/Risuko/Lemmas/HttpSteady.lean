import Risuko.Lemmas.HttpAttempts

/-!
# Attempts at a resource that stays

While the resource does not change, the part file has only bytes of it, and what an attempt takes for written is there (`Steady`).
-/

namespace Risuko

namespace Http

namespace Attempts

variable {server : Server} {version : ℕ} {f : PartFile} {m : Multi} {run : Run} {bodies : ℕ → ℕ}

/-! ## The invariant -/

/-- What an attempt relies on while the resource is this version. -/
def PhaseOk (server : Server) (version : ℕ) (part : Option PartFile) : Phase → Prop
  | .probed _ _ probe => ∀ p ∈ probe, p.rangeSupported = true → p.contentLength = server.length version
  | .loading m => m.contentLength = server.length version
  | .opening m resumed =>
    m.contentLength = server.length version ∧
      ∀ pieceSize pieces, resumed = some (pieceSize, pieces) → Resumable part version m.contentLength pieceSize pieces
  | .allocating m resumed =>
    m.contentLength = server.length version ∧ ∃ f ∈ part,
      ∀ pieceSize pieces, resumed = some (pieceSize, pieces) → Resumable (some f) version m.contentLength pieceSize pieces
  | .multi m run bodies => ∃ f ∈ part, MultiOk server version m run bodies f
  | .syncing _ | .syncingSingle => ∀ f ∈ part, f.IsWhole server version
  | .receiving offset w => w = version ∧ ∀ f ∈ part, f.length = offset ∧ ∀ x < offset, f.byte x = some version
  | _ => True

/-- Whether a part file has bytes of this version only. -/
def OnlyOf (server : Server) (version : ℕ) (f : PartFile) : Prop :=
  f.length ≤ server.length version ∧ ∀ x w, f.byte x = some w → w = version

structure Steady (server : Server) (version : ℕ) (s : Attempts) : Prop where
  current : s.version = version
  part : ∀ f ∈ s.part, OnlyOf server version f
  sidecar : ∀ saved ∈ s.sidecar, saved.contentLength = server.length version ∧ (saved.pieces.map (·.i)).Nodup
  phase : PhaseOk server version s.part s.phase
  finalised : ∀ e f, (e, f) ∈ s.finalised → f.IsWhole server version

variable {s s' : Attempts}

theorem OnlyOf.full (h : OnlyOf server version f) (hfull : PartFile.hasHole f = false) : ∀ x < f.length, f.byte x = some version := by
  intro x hx
  have hsome := List.any_eq_false.mp hfull x (List.mem_range.mpr hx)
  rw [Option.isNone_iff_eq_none] at hsome
  obtain ⟨w, hw⟩ := Option.ne_none_iff_exists'.mp hsome
  rw [hw, h.2 x w hw]

theorem OnlyOf.put (h : OnlyOf server version f) {offset n : ℕ} (hn : offset + n ≤ server.length version) :
    OnlyOf server version (f.put offset n version) := by
  refine ⟨PartFile.length_put_le h.1 hn, fun x w hw => ?_⟩
  rw [PartFile.byte_put] at hw
  split at hw
  · cases hw
    rfl
  · exact h.2 x w hw

theorem OnlyOf.setLen (h : OnlyOf server version f) {n : ℕ} (hn : n ≤ server.length version) :
    OnlyOf server version (f.setLen n) := by
  refine ⟨hn, fun x w hw => ?_⟩
  dsimp only [PartFile.setLen] at hw
  rw [Option.ite_none_right_eq_some] at hw
  exact h.2 x w hw.2

theorem OnlyOf.allocate (h : OnlyOf server version f) {n : ℕ} (hn : n ≤ server.length version) {mode : FallocMode} :
    OnlyOf server version (Http.allocate f n mode) := by
  unfold Http.allocate
  split
  · exact h
  · exact h.setLen hn

theorem onlyOf_empty : OnlyOf server version .empty := ⟨Nat.zero_le _, nofun⟩

/-- A step that leaves the files as they are. -/
theorem Steady.goesOn (h : Steady server version s) {phase : Phase} (hphase : PhaseOk server version s.part phase) :
    Steady server version { s with phase := phase } :=
  ⟨h.current, h.part, h.sidecar, hphase, h.finalised⟩

theorem Steady.getD (h : Steady server version s) : OnlyOf server version (s.part.getD .empty) := by
  cases hpart : s.part with
  | none => exact onlyOf_empty
  | some f => exact h.part f hpart

theorem Steady.choose (h : Steady server version s) {o : Settings} {existing : ℕ} {probe : Option ProbeResult}
    (hprobe : ∀ p ∈ probe, p.rangeSupported = true → p.contentLength = server.length version) :
    PhaseOk server version s.part (s.choose o existing probe) := by
  rcases choose_cases s o existing probe with ⟨m, p, heq, hrange, htotal, -, hfrom⟩ | heq | heq
  · rw [heq]
    show m.contentLength = _
    rw [htotal]
    rcases hfrom with hp | ⟨saved, hsaved, f, hf, hp⟩
    · exact hprobe p hp hrange
    · rw [(probeFromSidecar_some hp).1]
      exact (h.sidecar saved hsaved).1
  · rw [heq]
    trivial
  · rw [heq]
    trivial

/-- Without holes, what a sidecar counts is in the part file. -/
theorem Steady.load (h : Steady server version s) {m : Multi} (hphase : s.phase = .loading m) (hsafe : s.findsHole .load = false) :
    ∀ pieceSize pieces, (s.sidecar.bind fun saved => loadPieceMeta saved s.part m.contentLength m.etag m.lastModified) = some (pieceSize, pieces) →
      Resumable s.part version m.contentLength pieceSize pieces := by
  intro pieceSize pieces hload
  have hcounted : ∀ pp ∈ pieces, ∀ k < pp.c, ∃ f ∈ s.part, (f.byte (pp.i * pieceSize + k)).isSome = true := by
    intro pp hpp k hk
    unfold findsHole at hsafe
    rw [hphase] at hsafe
    dsimp only at hsafe
    rw [hload] at hsafe
    have hall := List.any_eq_false.mp (Bool.eq_false_iff.mpr (List.any_eq_false.mp hsafe pp hpp)) k (List.mem_range.mpr hk)
    rw [Bool.not_eq_true', Bool.not_eq_false] at hall
    cases hpart : s.part with
    | none =>
      rw [hpart] at hall
      cases hall
    | some f =>
      rw [hpart] at hall
      exact ⟨f, rfl, hall⟩
  obtain ⟨saved, hsaved, hload⟩ := Option.bind_eq_some_iff.mp hload
  refine resumable_load hload (h.sidecar saved hsaved).2 fun pp hpp k hk => ?_
  obtain ⟨f, hf, hsome⟩ := hcounted pp hpp k hk
  obtain ⟨w, hw⟩ := Option.isSome_iff_exists.mp hsome
  refine ⟨f, hf, ?_⟩
  rw [hw, (h.part f hf).2 _ w hw]

/-- What a run of the workers leaves of the sidecar. -/
theorem Steady.save (h : Steady server version s) (hmulti : MultiOk server version m run bodies f) :
    ∀ saved ∈ (savePieceMeta run.queue m.contentLength m.etag m.lastModified).or s.sidecar,
      saved.contentLength = server.length version ∧ (saved.pieces.map (·.i)).Nodup := by
  intro saved hsaved
  rcases Option.or_eq_some_iff.mp hsaved with hnew | ⟨-, hold⟩
  · obtain ⟨htotal, -, hnodup, -⟩ := hmulti.save hnew
    exact ⟨htotal, hnodup⟩
  · exact h.sidecar saved hold

/-- What the answer to a single connection makes of the part file. -/
theorem Steady.answered (h : Steady server version s) {answer : Answer}
    (hsafe : s.findsHole (.ask answer) = false) (hs : s.answered server answer = some s') : Steady server version s' := by
  have hfull : s.part.any PartFile.hasHole = false → ∀ f ∈ s.part, ∀ x < f.length, f.byte x = some version := by
    intro hholes f hf
    rw [Option.mem_def] at hf
    rw [hf] at hholes
    exact (h.part f hf).full hholes
  cases answer with
  | fails retry =>
    cases hs
    refine h.goesOn ?_
    cases retry <;> trivial
  | notSatisfiable tells =>
    simp only [Attempts.answered, Option.ite_none_right_eq_some] at hs
    obtain ⟨-, hs⟩ := hs
    split at hs
    · rename_i htells
      cases hs
      rw [htells.1] at hsafe
      refine h.goesOn fun f hf => ⟨?_, hfull hsafe f hf⟩
      rw [← h.current, htells.2]
      unfold existing
      rw [hf]
      rfl
    · cases hs
      exact ⟨h.current, nofun, h.sidecar, trivial, h.finalised⟩
  | whole =>
    cases hs
    refine ⟨h.current, fun f hf => ?_, h.sidecar, ⟨h.current, fun f hf => ?_⟩, h.finalised⟩
    · cases hf
      exact h.getD.setLen (Nat.zero_le _)
    · cases hf
      exact ⟨rfl, nofun⟩
  | rest =>
    simp only [Attempts.answered, Option.ite_none_right_eq_some] at hs
    obtain ⟨-, hs⟩ := hs
    cases hs
    refine ⟨h.current, fun f hf => ?_, h.sidecar, ⟨h.current, fun f hf => ?_⟩, h.finalised⟩
    · cases hf
      exact h.getD
    · cases hf
      unfold existing
      cases hpart : s.part with
      | none => exact ⟨rfl, nofun⟩
      | some f => exact ⟨rfl, hfull hsafe f hpart⟩
  | wrongRange =>
    simp only [Attempts.answered, Option.ite_none_right_eq_some] at hs
    obtain ⟨-, hs⟩ := hs
    cases hs
    exact ⟨h.current, nofun, h.sidecar, trivial, h.finalised⟩

/-! ## Steps -/

/-- Every step keeps what is written true, if it takes no hole for written and no body ends short. -/
theorem Steady.step (h : Steady server version s) {a : AttemptAction} (hsame : a.changes = false) (hsafe : s.findsHole a = false)
    (hwhole : s.endsShort server a = false) (hs : s.step server a = some s') : Steady server version s' := by
  have hok := h.phase
  cases a with
  | changeResource w => cases hsame
  | start o answered =>
    have hprobed : ∀ ranges, PhaseOk server version s.part (.probed o s.existing (some (probeOf server s.version ranges))) := by
      intro ranges p hp hrange
      cases hp
      have hrange : ranges = true := hrange
      show (if ranges = true then server.length s.version else 0) = _
      rw [if_pos hrange, h.current]
    obtain ⟨phase, rfl, rfl | rfl | ⟨ranges, rfl⟩⟩ := start_cases hs
    · exact h.goesOn trivial
    · exact h.goesOn (by rintro _ ⟨⟩)
    · exact h.goesOn (hprobed ranges)
  | choose =>
    simp only [Attempts.step] at hs
    split at hs
    · rename_i o existing probe hphase
      cases hs
      rw [hphase] at hok
      exact h.goesOn (h.choose hok)
    · cases hs
  | load =>
    simp only [Attempts.step] at hs
    split at hs
    · rename_i m hphase
      cases hs
      rw [hphase] at hok
      refine ⟨h.current, h.part, fun saved hsaved => ?_, ⟨hok, h.load hphase hsafe⟩, h.finalised⟩
      rw [Option.mem_def, Option.ite_none_right_eq_some] at hsaved
      exact h.sidecar saved hsaved.2
    · cases hs
  | openPart =>
    simp only [Attempts.step] at hs
    split at hs
    · rename_i m resumed hphase
      cases hs
      rw [hphase] at hok
      refine ⟨h.current, fun f hf => ?_, h.sidecar, ⟨hok.1, _, rfl, fun pieceSize pieces heq => (hok.2 pieceSize pieces heq).opened⟩,
        h.finalised⟩
      cases hf
      exact h.getD
    · cases hs
  | allocates workers =>
    simp only [Attempts.step] at hs
    split at hs
    · rename_i m resumed hphase
      rw [hphase] at hok
      split at hs
      · cases hs
        exact h.goesOn trivial
      · cases hs
        obtain ⟨htotal, f, hf, hresumed⟩ := hok
        refine ⟨h.current, fun g hg => ?_, h.sidecar, ⟨_, Option.mem_map_of_mem _ hf, ?_⟩, h.finalised⟩
        · obtain ⟨g', hg', rfl⟩ := Option.map_eq_some_iff.mp hg
          exact (h.part g' hg').allocate (le_of_eq htotal)
        · exact startRun_ok htotal hresumed (fun _ => (h.part f hf).1.trans (le_of_eq htotal.symm)) _
    · cases hs
  | run a tellsTotal =>
    simp only [Attempts.step] at hs
    split at hs
    · rename_i m run bodies hphase
      rw [hphase] at hok
      obtain ⟨f, hf, hmulti⟩ := hok
      rw [Option.ite_none_left_eq_some] at hs
      obtain ⟨after, hafter, rfl⟩ := Option.map_eq_some_iff.mp hs.2
      refine ⟨h.current, fun g hg => ?_, h.sidecar, ⟨_, Option.mem_map_of_mem _ hf, ?_⟩, h.finalised⟩
      · obtain ⟨g', hg', rfl⟩ := Option.map_eq_some_iff.mp hg
        obtain rfl := Option.mem_unique hg' hf
        rcases hmulti.landed_cases hafter with ⟨-, hsame⟩ | ⟨offset, n, -, hle, hput⟩
        · rw [hsame]
          exact h.part g' hf
        · rw [hput]
          exact (h.part g' hf).put (hle.trans (le_of_eq hmulti.total))
      · refine hmulti.step hafter (fun v hv => ?_) fun v hv => ?_
        · split
          · rename_i u
            refine Function.update_of_ne ?_ ..
            rintro rfl
            exact hv rfl
          · rfl
        · subst hv
          exact (Function.update_self ..).trans h.current
    · cases hs
  | save =>
    simp only [Attempts.step] at hs
    split at hs
    · rename_i m run bodies hphase
      cases hs
      have hkeep := hok
      rw [hphase] at hok
      obtain ⟨f, -, hmulti⟩ := hok
      exact ⟨h.current, h.part, h.save hmulti, hkeep, h.finalised⟩
    · cases hs
  | conclude stallText errors =>
    simp only [Attempts.step] at hs
    split at hs
    · rename_i m run bodies hphase
      rw [hphase] at hok
      obtain ⟨f, hf, hmulti⟩ := hok
      rw [Option.ite_none_right_eq_some] at hs
      obtain ⟨herrors, hs⟩ := hs
      obtain ⟨L, hL, hperm⟩ := any_errors herrors
      split at hs
      · split at hs
        · cases hs
          exact h.goesOn trivial
        · cases hs
          exact ⟨h.current, h.part, h.save hmulti, trivial, h.finalised⟩
      · rename_i hverdict
        cases hs
        refine h.goesOn fun g hg => ?_
        rw [Option.mem_unique hg hf]
        exact hmulti.whole hL hperm hverdict
    · cases hs
  | ends ending =>
    simp only [Attempts.step] at hs
    split at hs
    · cases hs
      exact h.goesOn trivial
    · cases hs
      exact ⟨h.current, by simp, h.sidecar, trivial, h.finalised⟩
    · rename_i m hphase
      cases hs
      rw [hphase] at hok
      exact ⟨h.current, by simp, h.sidecar, trivial, finalised_append h.finalised hok⟩
    · cases hs
      exact h.goesOn trivial
    · cases hs
      exact ⟨h.current, by simp, h.sidecar, trivial, h.finalised⟩
    · rename_i hphase
      cases hs
      rw [hphase] at hok
      exact ⟨h.current, by simp, h.sidecar, trivial, finalised_append h.finalised hok⟩
    · cases hs
  | remove =>
    simp only [Attempts.step] at hs
    split at hs
    · cases hs
      exact ⟨h.current, h.part, by simp, trivial, h.finalised⟩
    · cases hs
      exact ⟨h.current, by simp, h.sidecar, trivial, h.finalised⟩
    · cases hs
      exact ⟨h.current, h.part, by simp, trivial, h.finalised⟩
    · cases hs
      exact ⟨h.current, by simp, h.sidecar, trivial, h.finalised⟩
    · cases hs
      exact ⟨h.current, h.part, by simp, trivial, h.finalised⟩
    · cases hs
  | ask answer =>
    simp only [Attempts.step] at hs
    split at hs
    · exact h.answered hsafe hs
    · cases hs
  | receive n =>
    simp only [Attempts.step] at hs
    split at hs
    · rename_i offset w hphase
      rw [Option.ite_none_right_eq_some] at hs
      obtain ⟨hle, hs⟩ := hs
      cases hs
      rw [hphase] at hok
      obtain ⟨rfl, hbytes⟩ := hok
      refine ⟨h.current, fun f hf => ?_, h.sidecar, ⟨rfl, fun f hf => ?_⟩, h.finalised⟩
      · obtain ⟨g, hg, rfl⟩ := Option.map_eq_some_iff.mp hf
        exact (h.part g hg).put hle
      · obtain ⟨g, hg, rfl⟩ := Option.map_eq_some_iff.mp hf
        exact PartFile.put_at_end (hbytes g hg).1 (hbytes g hg).2
    · cases hs
  | bodyEnds =>
    simp only [Attempts.step] at hs
    split at hs
    · rename_i offset w hphase
      cases hs
      simp only [endsShort, hphase, bne_eq_false_iff_eq] at hwhole
      rw [hphase] at hok
      obtain ⟨rfl, hbytes⟩ := hok
      refine h.goesOn fun f hf => ?_
      obtain ⟨hlength, hall⟩ := hbytes f hf
      exact ⟨hlength.trans hwhole, fun x hx => hall x (hlength ▸ hx)⟩
    · cases hs
  | bodyFails retry =>
    simp only [Attempts.step] at hs
    split at hs
    · cases hs
      refine h.goesOn ?_
      cases retry <;> trivial
    · cases hs
  | crash =>
    cases hs
    exact h.goesOn trivial

end Attempts

end Http

end Risuko
