import Risuko.Lemmas.HttpAttempts

/-!
# Attempts at a resource that changes

With strong ETags, the sidecar and the attempt that goes on with it are of one version, and what they count is in the part file (`Versioned`).
-/

namespace Risuko

namespace Http

variable {server : Server} {version : ℕ}

/-! ## ETags -/

/-- Every version has a strong ETag, and no two have the same. -/
structure Server.Tagged (server : Server) : Prop where
  strong : ∀ version, ∃ tag ∈ server.etag version, isStrongEtag tag = true
  one : ∀ version version', server.etag version = server.etag version' → version = version'

theorem etagsStronglyEqual_eq {a b : Text} (h : etagsStronglyEqual a b = true) : a = b := by
  unfold etagsStronglyEqual at h
  simp only [Bool.and_eq_true, beq_iff_eq] at h
  exact h.2

/-- A sidecar that matches a strong ETag has the same. -/
theorem validatorsMatch_etag {saved : ChunkMeta} {etag lastModified : Option Text} {tag tag' : Text} (hsaved : saved.etag = some tag)
    (hstrong : isStrongEtag tag = true) (hetag : etag = some tag') (hstrong' : isStrongEtag tag' = true)
    (h : validatorsMatch saved etag lastModified = true) : saved.etag = etag := by
  unfold validatorsMatch at h
  rw [hsaved, hetag, Option.any_some, Option.any_some, hstrong, hstrong'] at h
  rw [hsaved, hetag, etagsStronglyEqual_eq h]

namespace Attempts

variable {f : PartFile} {m : Multi} {run : Run} {bodies : ℕ → ℕ} {s s' : Attempts}

/-- A piece request goes on only with the version that the attempt was started with. -/
theorem admits_version (hserver : server.Tagged) {current : ℕ} {tellsTotal : Bool} (hetag : server.etag version = m.etag)
    (h : admits server m current tellsTotal = true) : current = version := by
  obtain ⟨tag, htag, hstrong⟩ := hserver.strong version
  obtain ⟨tag', htag', -⟩ := hserver.strong current
  rw [Option.mem_def] at htag htag'
  unfold admits at h
  rw [Bool.and_eq_true, ← hetag, htag, htag', Option.filter_some, if_pos hstrong] at h
  refine hserver.one _ _ ?_
  rw [htag, htag', etagsStronglyEqual_eq h.1]

/-! ## The invariant -/

/-- What an attempt relies on. -/
def VersionOk (server : Server) (part : Option PartFile) (sidecar : Option ChunkMeta) : Phase → Prop
  | .probed _ _ probe => ∀ p ∈ probe, p.rangeSupported = true → ∃ v, server.etag v = p.etag ∧ p.contentLength = server.length v
  | .loading m => ∃ v, server.etag v = m.etag ∧ m.contentLength = server.length v
  | .opening m resumed =>
    ∃ v, server.etag v = m.etag ∧ m.contentLength = server.length v ∧
      (∀ saved ∈ sidecar, saved.etag = m.etag ∧ part ≠ none ∧ resumed ≠ none) ∧
      ∀ pieceSize pieces, resumed = some (pieceSize, pieces) → Resumable part v m.contentLength pieceSize pieces
  | .allocating m resumed =>
    ∃ v, server.etag v = m.etag ∧ m.contentLength = server.length v ∧ (∀ saved ∈ sidecar, saved.etag = m.etag ∧ resumed ≠ none) ∧
      ∃ f ∈ part, ∀ pieceSize pieces, resumed = some (pieceSize, pieces) → Resumable (some f) v m.contentLength pieceSize pieces
  | .multi m run bodies =>
    ∃ v, server.etag v = m.etag ∧ (∀ saved ∈ sidecar, saved.etag = m.etag) ∧ ∃ f ∈ part, MultiOk server v m run bodies f
  | .syncing m => ∃ v, server.etag v = m.etag ∧ ∀ f ∈ part, f.IsWhole server v
  | .clearing | .clearingStale => part = none
  | .stale => part = none ∧ sidecar = none
  | .idle | .removing => True
  | .dropping | .droppingSidecar | .asking | .receiving .. | .syncingSingle => False

/-- What the sidecar counts is in the part file, if there is one, and of the version with its ETag. -/
def SavedOk (server : Server) (part : Option PartFile) (saved : ChunkMeta) : Prop :=
  ∃ v, server.etag v = saved.etag ∧ saved.contentLength = server.length v ∧ (saved.pieces.map (·.i)).Nodup ∧
    (part = none ∨ Backed part v saved.pieceSize saved.pieces)

structure Versioned (server : Server) (s : Attempts) : Prop where
  sidecar : ∀ saved ∈ s.sidecar, SavedOk server s.part saved
  phase : VersionOk server s.part s.sidecar s.phase
  finalised : ∀ e f, (e, f) ∈ s.finalised → ∃ v, server.etag v = e ∧ f.IsWhole server v

theorem SavedOk.gone {part : Option PartFile} {saved : ChunkMeta} (h : SavedOk server part saved) : SavedOk server none saved := by
  obtain ⟨v, hetag, htotal, hnodup, -⟩ := h
  exact ⟨v, hetag, htotal, hnodup, Or.inl rfl⟩

/-- The part file changes, and keeps the bytes of the version. -/
theorem SavedOk.keeps (hserver : server.Tagged) {saved : ChunkMeta} {g : PartFile} (h : SavedOk server (some f) saved)
    (hetag : server.etag version = saved.etag) (hbytes : ∀ x, f.byte x = some version → g.byte x = some version) :
    SavedOk server (some g) saved := by
  obtain ⟨v, hetag', htotal, hnodup, hbacked⟩ := h
  obtain rfl := hserver.one v version (hetag'.trans hetag.symm)
  refine ⟨v, hetag', htotal, hnodup, Or.inr fun pp hpp k hk => ⟨g, rfl, hbytes _ ?_⟩⟩
  rcases hbacked with hnone | hbacked
  · cases hnone
  · obtain ⟨f', hf', hbyte⟩ := hbacked pp hpp k hk
    cases hf'
    exact hbyte

/-- A step that leaves the files as they are. -/
theorem Versioned.goesOn (h : Versioned server s) {phase : Phase} (hphase : VersionOk server s.part s.sidecar phase) :
    Versioned server { s with phase := phase } :=
  ⟨h.sidecar, hphase, h.finalised⟩

theorem Versioned.choose (h : Versioned server s) {o : Settings} {existing : ℕ} {probe : Option ProbeResult}
    (hphase : s.phase = .probed o existing probe)
    {m : Multi} (hmulti : s.choose o existing probe = .loading m) : VersionOk server s.part s.sidecar (.loading m) := by
  have hprobe := h.phase
  rw [hphase] at hprobe
  rcases choose_cases s o existing probe with ⟨m', p, heq, hrange, htotal, hetag, hfrom⟩ | heq | heq
  · rw [hmulti] at heq
    cases heq
    show ∃ v, server.etag v = m.etag ∧ m.contentLength = server.length v
    rw [htotal, hetag]
    rcases hfrom with hp | ⟨saved, hsaved, f, hf, hp⟩
    · exact hprobe p hp hrange
    · obtain ⟨v, hetag', htotal', -, -⟩ := h.sidecar saved hsaved
      rw [(probeFromSidecar_some hp).1, (probeFromSidecar_some hp).2]
      exact ⟨v, hetag', htotal'⟩
  · rw [hmulti] at heq
    cases heq
  · rw [hmulti] at heq
    cases heq

theorem Versioned.load (hserver : server.Tagged) (h : Versioned server s) (hphase : s.phase = .loading m) {resumed : Option (ℕ × List PieceProgress)}
    (hload : (s.sidecar.bind fun saved => loadPieceMeta saved s.part m.contentLength m.etag m.lastModified) = resumed) :
    VersionOk server s.part (if resumed.isSome then s.sidecar else none) (.opening m resumed) := by
  have hok := h.phase
  rw [hphase] at hok
  obtain ⟨v, hetag, htotal⟩ := hok
  -- A sidecar that is taken over is of the version that was probed.
  have htaken : ∀ found, resumed = some found → ∀ saved ∈ s.sidecar, loadPieceMeta saved s.part m.contentLength m.etag m.lastModified = some found ∧
      saved.etag = m.etag ∧ s.part ≠ none ∧ Backed s.part v saved.pieceSize saved.pieces ∧ (saved.pieces.map (·.i)).Nodup := by
    intro found hfound saved hsaved
    rw [Option.mem_def] at hsaved
    rw [hsaved, hfound] at hload
    have hload : loadPieceMeta saved s.part m.contentLength m.etag m.lastModified = some found := hload
    obtain ⟨-, -, -, hmatch, f, hf, -, -⟩ := loadPieceMeta_some hload
    obtain ⟨w, hetag', -, hnodup, hbacked⟩ := h.sidecar saved hsaved
    obtain ⟨tag, htag, hstrong⟩ := hserver.strong w
    obtain ⟨tag', htag', hstrong'⟩ := hserver.strong v
    have hsame := validatorsMatch_etag (hetag'.symm.trans htag) hstrong (hetag.symm.trans htag') hstrong' hmatch
    have hpart : s.part ≠ none := by
      rw [Option.mem_def.mp hf]
      nofun
    obtain rfl := hserver.one w v (hetag'.trans (hsame.trans hetag.symm))
    exact ⟨hload, hsame, hpart, hbacked.resolve_left hpart, hnodup⟩
  refine ⟨v, hetag, htotal, fun saved hsaved => ?_, fun pieceSize pieces heq => ?_⟩
  · rw [Option.mem_def, Option.ite_none_right_eq_some] at hsaved
    obtain ⟨found, hfound⟩ := Option.isSome_iff_exists.mp hsaved.1
    obtain ⟨-, hsame, hpart, -, -⟩ := htaken found hfound saved hsaved.2
    refine ⟨hsame, hpart, ?_⟩
    rw [hfound]
    nofun
  · rw [heq] at hload
    obtain ⟨saved, hsaved, -⟩ := Option.bind_eq_some_iff.mp hload
    obtain ⟨hload, -, -, hbacked, hnodup⟩ := htaken _ heq saved hsaved
    exact resumable_load hload hnodup (backed_load hload hbacked)

/-! ## Steps -/

theorem SavedOk.of_save (h : MultiOk server version m run bodies f) (hetag : server.etag version = m.etag) {saved : ChunkMeta}
    (hsaved : savePieceMeta run.queue m.contentLength m.etag m.lastModified = some saved) :
    saved.etag = m.etag ∧ SavedOk server (some f) saved := by
  obtain ⟨htotal, hsame, hnodup, hbacked⟩ := h.save hsaved
  exact ⟨hsame, version, hetag.trans hsame.symm, htotal, hnodup, Or.inr hbacked⟩

/-- The sidecar after `save_piece_meta`. -/
theorem Versioned.save (h : Versioned server s) (hf : f ∈ s.part) (hmulti : MultiOk server version m run bodies f)
    (hetag : server.etag version = m.etag) (hsidecar : ∀ saved ∈ s.sidecar, saved.etag = m.etag) :
    ∀ saved ∈ (savePieceMeta run.queue m.contentLength m.etag m.lastModified).or s.sidecar, saved.etag = m.etag ∧ SavedOk server s.part saved := by
  intro saved hsaved
  rcases Option.or_eq_some_iff.mp hsaved with hnew | ⟨-, hold⟩
  · rw [Option.mem_def.mp hf]
    exact SavedOk.of_save hmulti hetag hnew
  · exact ⟨hsidecar saved hold, h.sidecar saved hold⟩

theorem Versioned.allocates (hserver : server.Tagged) (h : Versioned server s) {resumed : Option (ℕ × List PieceProgress)}
    (hphase : s.phase = .allocating m resumed) {workers : ℕ} (hsafe : s.findsTail (.allocates (some workers)) = false) :
    Versioned server { s with
      part := s.part.map fun f => allocate f m.contentLength m.mode
      phase := .multi m (startRun m resumed workers) fun _ => 0 } := by
  have hok := h.phase
  rw [hphase] at hok
  obtain ⟨v, hetag, htotal, hsidecar, f, hf, hresumed⟩ := hok
  rw [Option.mem_def] at hf
  have hmode : m.mode = .none → f.length ≤ m.contentLength := by
    intro hmode
    unfold findsTail at hsafe
    rw [hphase] at hsafe
    dsimp only at hsafe
    rw [hf, hmode, Option.any_some, beq_self_eq_true, Bool.true_and] at hsafe
    exact not_lt.mp (of_decide_eq_false hsafe)
  refine ⟨fun saved hsaved => ?_, ⟨v, hetag, fun saved hsaved => (hsidecar saved hsaved).1, _, Option.mem_map_of_mem _ hf,
    startRun_ok htotal hresumed hmode workers⟩, h.finalised⟩
  obtain ⟨hsame, htaken⟩ := hsidecar saved hsaved
  obtain ⟨found, hfound⟩ := Option.ne_none_iff_exists'.mp htaken
  have hold := h.sidecar saved hsaved
  rw [hf] at hold
  dsimp only
  rw [hf]
  refine hold.keeps hserver (hetag.trans hsame.symm) fun x hx => allocate_byte ?_ hx
  refine (f.inside x ?_).trans_le ((hresumed found.1 found.2 hfound).length f rfl)
  rw [hx]
  nofun

theorem Versioned.runs (hserver : server.Tagged) (h : Versioned server s) (hphase : s.phase = .multi m run bodies) {a : Action} {tellsTotal : Bool}
    (hs : s.step server (.run a tellsTotal) = some s') : Versioned server s' := by
  have hok := h.phase
  rw [hphase] at hok
  obtain ⟨v, hetag, hsidecar, f, hf, hmulti⟩ := hok
  simp only [Attempts.step, hphase] at hs
  rw [Option.ite_none_left_eq_some] at hs
  obtain ⟨hadmits, hs⟩ := hs
  obtain ⟨after, hafter, rfl⟩ := Option.map_eq_some_iff.mp hs
  refine ⟨fun saved hsaved => ?_, ⟨v, hetag, hsidecar, _, Option.mem_map_of_mem _ hf, ?_⟩, h.finalised⟩
  · have hold := h.sidecar saved hsaved
    rw [Option.mem_def] at hf
    rw [hf] at hold
    dsimp only
    rw [hf]
    exact hold.keeps hserver (hetag.trans (hsidecar saved hsaved).symm) fun x hx => hmulti.landed_keeps hafter hx
  · refine hmulti.step hafter (fun u hu => ?_) fun u hu => ?_
    · split
      · rename_i u'
        refine Function.update_of_ne ?_ ..
        rintro rfl
        exact hu rfl
      · rfl
    · subst hu
      have hadmits : admits server m s.version tellsTotal = true := by
        simpa using hadmits
      exact (Function.update_self ..).trans (admits_version hserver hetag hadmits)

/-- Every step keeps the part file of one version, if it takes no end of a longer file over. -/
theorem Versioned.step (hserver : server.Tagged) (h : Versioned server s) {a : AttemptAction} (hchoice : s.staysMulti a = true)
    (hsafe : s.findsTail a = false) (hs : s.step server a = some s') : Versioned server s' := by
  have hok := h.phase
  cases a with
  | changeResource w =>
    cases hs
    exact ⟨h.sidecar, hok, h.finalised⟩
  | start o answered =>
    have hprobed : ∀ ranges, VersionOk server s.part s.sidecar (.probed o s.existing (some (probeOf server s.version ranges))) := by
      intro ranges p hp hrange
      cases hp
      have hrange : ranges = true := hrange
      refine ⟨s.version, rfl, ?_⟩
      show (if ranges = true then server.length s.version else 0) = _
      rw [if_pos hrange]
    obtain ⟨phase, rfl, rfl | rfl | ⟨ranges, rfl⟩⟩ := start_cases hs
    · exact h.goesOn trivial
    · exact h.goesOn (by rintro _ ⟨⟩)
    · exact h.goesOn (hprobed ranges)
  | choose =>
    simp only [Attempts.step] at hs
    split at hs
    · rename_i o existing probe hphase
      cases hs
      obtain ⟨m, hm⟩ : ∃ m, s.choose o existing probe = .loading m := by
        simp only [staysMulti, hphase] at hchoice
        split at hchoice
        · rename_i m hm
          exact ⟨m, hm⟩
        · cases hchoice
      refine h.goesOn ?_
      rw [hm]
      exact h.choose hphase hm
    · cases hs
  | load =>
    simp only [Attempts.step] at hs
    split at hs
    · rename_i m hphase
      cases hs
      refine ⟨fun saved hsaved => ?_, h.load hserver hphase rfl, h.finalised⟩
      rw [Option.mem_def, Option.ite_none_right_eq_some] at hsaved
      exact h.sidecar saved hsaved.2
    · cases hs
  | openPart =>
    simp only [Attempts.step] at hs
    split at hs
    · rename_i m resumed hphase
      cases hs
      rw [hphase] at hok
      obtain ⟨v, hetag, htotal, hsidecar, hresumed⟩ := hok
      refine ⟨fun saved hsaved => ?_, ⟨v, hetag, htotal, fun saved hsaved => ?_, _, rfl, fun pieceSize pieces heq => ?_⟩, h.finalised⟩
      · obtain ⟨-, hpart, -⟩ := hsidecar saved hsaved
        obtain ⟨f, hf⟩ := Option.ne_none_iff_exists'.mp hpart
        have hold := h.sidecar saved hsaved
        dsimp only
        rw [hf] at hold ⊢
        exact hold
      · obtain ⟨hsame, -, htaken⟩ := hsidecar saved hsaved
        exact ⟨hsame, htaken⟩
      · exact (hresumed pieceSize pieces heq).opened
    · cases hs
  | allocates workers =>
    simp only [Attempts.step] at hs
    split at hs
    · rename_i m resumed hphase
      split at hs
      · cases hs
        exact h.goesOn trivial
      · cases hs
        exact h.allocates hserver hphase hsafe
    · cases hs
  | run a tellsTotal =>
    have hrun := hs
    simp only [Attempts.step] at hrun
    split at hrun
    · rename_i m run bodies hphase
      exact h.runs hserver hphase hs
    · cases hrun
  | save =>
    simp only [Attempts.step] at hs
    split at hs
    · rename_i m run bodies hphase
      cases hs
      rw [hphase] at hok
      obtain ⟨v, hetag, hsidecar, f, hf, hmulti⟩ := hok
      have hsaved := h.save hf hmulti hetag hsidecar
      refine ⟨fun saved hmem => (hsaved saved hmem).2, ?_, h.finalised⟩
      rw [hphase]
      exact ⟨v, hetag, fun saved hmem => (hsaved saved hmem).1, f, hf, hmulti⟩
    · cases hs
  | conclude stallText errors =>
    simp only [Attempts.step] at hs
    split at hs
    · rename_i m run bodies hphase
      rw [hphase] at hok
      obtain ⟨v, hetag, hsidecar, f, hf, hmulti⟩ := hok
      rw [Option.ite_none_right_eq_some] at hs
      obtain ⟨herrors, hs⟩ := hs
      obtain ⟨L, hL, hperm⟩ := any_errors herrors
      split at hs
      · split at hs
        · cases hs
          exact h.goesOn trivial
        · cases hs
          exact ⟨fun saved hmem => (h.save hf hmulti hetag hsidecar saved hmem).2, trivial, h.finalised⟩
      · rename_i hverdict
        cases hs
        refine h.goesOn ⟨v, hetag, fun g hg => ?_⟩
        rw [Option.mem_unique hg hf]
        exact hmulti.whole hL hperm hverdict
    · cases hs
  | ends ending =>
    simp only [Attempts.step] at hs
    split at hs
    · cases hs
      exact h.goesOn trivial
    · cases hs
      exact ⟨fun saved hsaved => (h.sidecar saved hsaved).gone, rfl, h.finalised⟩
    · rename_i m hphase
      cases hs
      rw [hphase] at hok
      obtain ⟨v, hetag, hwhole⟩ := hok
      exact ⟨fun saved hsaved => (h.sidecar saved hsaved).gone, rfl, finalised_append h.finalised fun f hf => ⟨v, hetag, hwhole f hf⟩⟩
    · rename_i hphase
      rw [hphase] at hok
      exact hok.elim
    · rename_i hphase
      rw [hphase] at hok
      exact hok.elim
    · rename_i hphase
      rw [hphase] at hok
      exact hok.elim
    · cases hs
  | remove =>
    simp only [Attempts.step] at hs
    split at hs
    · cases hs
      exact ⟨by simp, trivial, h.finalised⟩
    · cases hs
      exact ⟨fun saved hsaved => (h.sidecar saved hsaved).gone, rfl, h.finalised⟩
    · rename_i hphase
      cases hs
      rw [hphase] at hok
      exact ⟨by simp, ⟨hok, rfl⟩, h.finalised⟩
    · rename_i hphase
      rw [hphase] at hok
      exact hok.elim
    · rename_i hphase
      rw [hphase] at hok
      exact hok.elim
    · cases hs
  | ask answer | receive n | bodyEnds | bodyFails retry =>
    simp only [Attempts.step] at hs
    split at hs
    · rename_i hphase
      rw [hphase] at hok
      exact hok.elim
    · cases hs
  | crash =>
    cases hs
    exact h.goesOn trivial

end Attempts

end Http

end Risuko
