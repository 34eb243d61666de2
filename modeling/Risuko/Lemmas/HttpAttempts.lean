import Risuko.Http.Attempts
import Risuko.Lemmas.HttpPieces

/-!
# What the part file holds

While the workers of an attempt run, what they have counted is in the part file, and all of it comes from one version of the resource (`MultiOk`). An
attempt begins so when the sidecar that it takes over counts only such bytes (`Backed`).
-/

namespace Risuko

namespace Http

variable {server : Server} {version : ℕ} {f : PartFile}
variable {offset n x : ℕ} {saved : ChunkMeta}

/-! ## Part files -/

theorem PartFile.byte_put :
    (f.put offset n version).byte x = if offset ≤ x ∧ x < offset + n then some version else f.byte x := rfl

theorem PartFile.length_put_le {limit : ℕ} (h : f.length ≤ limit) (hn : offset + n ≤ limit) : (f.put offset n version).length ≤ limit := by
  show (if n = 0 then f.length else max f.length (offset + n)) ≤ limit
  split
  · exact h
  · exact max_le h hn

/-- A byte of the version stays one when another chunk of it is written. -/
theorem PartFile.put_keeps (h : f.byte x = some version) : (f.put offset n version).byte x = some version := by
  rw [PartFile.byte_put]
  split
  · rfl
  · exact h

theorem PartFile.isWhole_of_bytes (hlength : f.length ≤ server.length version) (hbytes : ∀ x < server.length version, f.byte x = some version) :
    f.IsWhole server version := by
  refine ⟨le_antisymm hlength ?_, fun x hx => hbytes x (hx.trans_le hlength)⟩
  by_contra hshort
  have hlast := hbytes f.length (not_le.mp hshort)
  exact absurd (f.inside f.length (by rw [hlast]; nofun)) (lt_irrefl _)

/-- A single connection writes at the end of the file. -/
theorem PartFile.put_at_end (hlength : f.length = offset) (hbytes : ∀ x < offset, f.byte x = some version) :
    (f.put offset n version).length = offset + n ∧ ∀ x < offset + n, (f.put offset n version).byte x = some version := by
  refine ⟨?_, fun x hx => ?_⟩
  · show (if n = 0 then f.length else max f.length (offset + n)) = _
    split <;> omega
  · by_cases hlo : offset ≤ x
    · exact if_pos ⟨hlo, hx⟩
    · exact put_keeps (hbytes x (not_le.mp hlo))

theorem allocate_byte {mode : FallocMode} (hx : x < n) (h : f.byte x = some version) : (allocate f n mode).byte x = some version := by
  unfold allocate
  split
  · exact h
  · exact (if_pos hx).trans h

theorem length_allocate_le {mode : FallocMode} (h : mode = .none → f.length ≤ n) : (allocate f n mode).length ≤ n := by
  unfold allocate
  split
  · rename_i hmode
    exact h hmode
  · exact le_refl n

/-! ## The pieces of a sidecar -/

/-- Whether the bytes that these pieces count are in the part file, and come from this version. -/
def Backed (part : Option PartFile) (version pieceSize : ℕ) (pieces : List PieceProgress) : Prop :=
  ∀ pp ∈ pieces, ∀ k < pp.c, ∃ f ∈ part, f.byte (pp.i * pieceSize + k) = some version

/-- What a piece has after `resume` is what it had, or what some entry counts. -/
theorem completed_resume {q : PieceQueue} {pieces : List PieceProgress} {i : ℕ} {p : Piece} (hp : (q.resume pieces).pieces[i]? = some p) :
    (∃ old : Piece, q.pieces[i]? = some old ∧ p.completed = old.completed) ∨ ∃ pp ∈ pieces, pp.i = i ∧ p.completed ≤ pp.c := by
  unfold PieceQueue.resume at hp
  induction pieces generalizing q with
  | nil => exact Or.inl ⟨p, hp, rfl⟩
  | cons pp rest ih =>
    rcases ih hp with ⟨old, hold, hsame⟩ | ⟨found, hfound, hrest⟩
    · obtain ⟨before, hbefore, rfl⟩ := getElem?_modify_some hold
      by_cases hi : pp.i = i
      · rw [if_pos hi] at hsame
        exact Or.inr ⟨pp, List.mem_cons_self, hi, hsame.le.trans (min_le_left _ _)⟩
      · rw [if_neg hi] at hsame
        exact Or.inl ⟨before, hbefore, hsame⟩
    · exact Or.inr ⟨found, List.mem_cons_of_mem _ hfound, hrest⟩

theorem mem_clampPieces {fileLen : ℕ} {pp : PieceProgress} (h : pp ∈ clampPieces saved fileLen) :
    ∃ old ∈ saved.pieces, pp.i = old.i ∧ pp.c ≤ old.c := by
  obtain ⟨old, hold, rfl⟩ := List.mem_map.mp (List.mem_of_mem_filter h)
  exact ⟨old, hold, rfl, min_le_left _ _⟩

theorem nodup_clampPieces (h : (saved.pieces.map (·.i)).Nodup) (fileLen : ℕ) :
    ((clampPieces saved fileLen).map (·.i)).Nodup := by
  refine List.Nodup.sublist (List.Sublist.map _ List.filter_sublist) ?_
  rwa [List.map_map]

/-- A sidecar that is taken over. -/
theorem loadPieceMeta_some {part : Option PartFile} {contentLength : ℕ} {etag lastModified : Option Text}
    {found : ℕ × List PieceProgress} (h : loadPieceMeta saved part contentLength etag lastModified = some found) :
    saved.contentLength = contentLength ∧ minPieceSize ≤ saved.pieceSize ∧ saved.pieceSize ≤ maxPieceSize ∧
      validatorsMatch saved etag lastModified = true ∧
      ∃ f ∈ part, f.length ≤ contentLength ∧ found = (saved.pieceSize, clampPieces saved f.length) := by
  unfold loadPieceMeta at h
  split at h
  · cases h
  rename_i hopen
  push Not at hopen
  split at h
  · cases h
  · rename_i f
    rw [Option.ite_none_right_eq_some] at h
    obtain ⟨⟨hlength, hmatch⟩, h⟩ := h
    cases h
    exact ⟨hopen.2.1, hopen.2.2.1, hopen.2.2.2, hmatch, f, rfl, hlength, rfl⟩

/-- The pieces that `save_piece_meta` writes. -/
theorem mem_saved {queue : PieceQueue} {pp : PieceProgress}
    (h : pp ∈ queue.pieces.zipIdx.filterMap fun (p, i) => if p.completed = 0 then none else some (⟨i, p.completed⟩ : PieceProgress)) :
    ∃ p : Piece, queue.pieces[pp.i]? = some p ∧ pp.c = p.completed := by
  obtain ⟨⟨p, i⟩, hmem, hpp⟩ := List.mem_filterMap.mp h
  dsimp only at hpp
  rw [Option.ite_none_left_eq_some] at hpp
  obtain ⟨-, hpp⟩ := hpp
  cases hpp
  exact ⟨p, List.mem_zipIdx_iff_getElem?.mp hmem, rfl⟩

theorem nodup_saved (queue : PieceQueue) :
    ((queue.pieces.zipIdx.filterMap fun (p, i) => if p.completed = 0 then none else some (⟨i, p.completed⟩ : PieceProgress)).map (·.i)).Nodup := by
  have hsub : ((queue.pieces.zipIdx.filterMap fun (p, i) => if p.completed = 0 then none else some (⟨i, p.completed⟩ : PieceProgress)).map
      (·.i)).Sublist (queue.pieces.zipIdx.map Prod.snd) := by
    generalize queue.pieces.zipIdx = entries
    induction entries with
    | nil => exact .slnil
    | cons entry rest ih =>
      rw [List.filterMap_cons]
      split
      · exact ih.cons _
      · rename_i found hfound
        have hi : found.i = entry.2 := by
          dsimp only at hfound
          split at hfound
          · cases hfound
          · cases hfound
            rfl
        rw [List.map_cons, List.map_cons, hi]
        exact ih.cons_cons _
  refine hsub.nodup ?_
  rw [List.zipIdx_map_snd]
  exact List.nodup_range'

/-! ## The workers and the part file -/

namespace Attempts

variable {a : Action} {saved : ChunkMeta} {part : Option PartFile} {contentLength pieceSize : ℕ} {etag : Option Text}
variable {pieces : List PieceProgress}

/-- What `run_multi_chunk` is in the middle of: what the run takes for written is in the part file, all of one version. -/
structure MultiOk (server : Server) (version : ℕ) (m : Multi) (run : Run) (bodies : ℕ → ℕ) (f : PartFile) : Prop where
  total : m.contentLength = server.length version
  pieces : ∃ pieceSize, minPieceSize ≤ pieceSize ∧ pieceSize ≤ maxPieceSize ∧ run.Ok m.contentLength pieceSize
  bytes : ∀ x, run.written x = true → f.byte x = some version
  bodies : ∀ (v : ℕ) (w : Worker), run.workers[v]? = some w → w.streams = true → bodies v = version
  length : f.length ≤ m.contentLength

variable {m : Multi} {run after : Run} {bodies bodies' : ℕ → ℕ} {resumed : Option (ℕ × List PieceProgress)}

/-- What a sidecar may be taken over with. -/
structure Resumable (part : Option PartFile) (version contentLength : ℕ) (pieceSize : ℕ) (pieces : List PieceProgress) : Prop where
  min : minPieceSize ≤ pieceSize
  max : pieceSize ≤ maxPieceSize
  nodup : (pieces.map (·.i)).Nodup
  backed : Backed part version pieceSize pieces
  length : ∀ f ∈ part, f.length ≤ contentLength

theorem startRun_initial (hresumed : ∀ pieceSize pieces, resumed = some (pieceSize, pieces) →
    Resumable (some f) version m.contentLength pieceSize pieces)
    (workers : ℕ) : (startRun m resumed workers).Initial m.contentLength where
  queue := by
    refine ⟨m.split, resumed, rfl, fun pieceSize pieces heq => ?_⟩
    have hres := hresumed pieceSize pieces heq
    exact ⟨hres.min, hres.max, hres.nodup⟩
  workers := ⟨workers, rfl⟩
  written := by
    intro p hp x hlo hhi
    refine List.any_eq_true.mpr ⟨(p.offset, p.completed), List.mem_map_of_mem hp, ?_⟩
    exact decide_eq_true ⟨hlo, hhi⟩

/-- The bytes that a run starts with are those of the sidecar. -/
theorem startRun_bytes (hresumed : ∀ pieceSize pieces, resumed = some (pieceSize, pieces) → Resumable (some f) version m.contentLength pieceSize pieces)
    {workers x : ℕ} (hx : (startRun m resumed workers).written x = true) : f.byte x = some version := by
  obtain ⟨w, hw, hin⟩ := List.any_eq_true.mp hx
  obtain ⟨p, hp, rfl⟩ := List.mem_map.mp hw
  obtain ⟨hlo, hhi⟩ := of_decide_eq_true hin
  dsimp only at hlo hhi
  cases resumed with
  | none =>
    rw [(rests_withPieceSize p hp).2.2] at hhi
    omega
  | some found =>
    obtain ⟨pieceSize, pieces⟩ := found
    have hres := hresumed pieceSize pieces rfl
    obtain ⟨i, hi⟩ := List.mem_iff_getElem?.mp hp
    have hlaid := ((laid_withPieceSize hres.max).resume pieces).piece i p hi
    rcases completed_resume hi with ⟨old, hold, hsame⟩ | ⟨pp, hpp, rfl, hle⟩
    · rw [hsame, (rests_withPieceSize old (List.mem_of_getElem? hold)).2.2] at hhi
      omega
    · obtain ⟨g, hg, hbyte⟩ := hres.backed pp hpp (x - p.offset) (by omega)
      cases hg
      rwa [← hlaid.1, Nat.add_sub_cancel' hlo] at hbyte

theorem startRun_ok (htotal : m.contentLength = server.length version)
    (hresumed : ∀ pieceSize pieces, resumed = some (pieceSize, pieces) → Resumable (some f) version m.contentLength pieceSize pieces)
    (hmode : m.mode = .none → f.length ≤ m.contentLength) (workers : ℕ) :
    MultiOk server version m (startRun m resumed workers) (fun _ => 0) (allocate f m.contentLength m.mode) := by
  refine ⟨htotal, (startRun_initial hresumed workers).ok, fun x hx => ?_, ?_, length_allocate_le hmode⟩
  · have hbyte := startRun_bytes hresumed hx
    by_cases hmode' : m.mode = .none
    · unfold allocate
      rwa [if_pos hmode']
    · refine allocate_byte ?_ hbyte
      -- Only a sidecar counts bytes, and then the part file is no longer than the resource.
      cases resumed with
      | none =>
        obtain ⟨w, hw, hin⟩ := List.any_eq_true.mp hx
        obtain ⟨p, hp, rfl⟩ := List.mem_map.mp hw
        obtain ⟨hlo, hhi⟩ := of_decide_eq_true hin
        dsimp only at hlo hhi
        rw [(rests_withPieceSize p hp).2.2] at hhi
        omega
      | some found =>
        refine (f.inside x ?_).trans_le ((hresumed found.1 found.2 rfl).length f rfl)
        rw [hbyte]
        nofun
  · intro v w hw hstreams
    rw [List.eq_of_mem_replicate (List.mem_of_getElem? hw)] at hstreams
    cases hstreams

/-- What a step puts into the part file. -/
theorem MultiOk.landed_cases (h : MultiOk server version m run bodies f) (hs : run.step a = some after) :
    (after.writes = run.writes ∧ landed f bodies a run after = f) ∨
    ∃ offset n, after.writes = (offset, n) :: run.writes ∧ offset + n ≤ m.contentLength ∧ landed f bodies a run after = f.put offset n version := by
  obtain ⟨pieceSize, hmin, hmax, hok⟩ := h.pieces
  have hpos : 0 < pieceSize := lt_of_lt_of_le (by decide) hmin
  rcases hok.write_inside hs with hsame | ⟨v, b, w, i, p, n, rfl, hw, hstreams, -, hp, hwrites, hn⟩
  · refine Or.inl ⟨hsame, ?_⟩
    have hnone : writeOf run after = none := by
      unfold writeOf
      rw [hsame, if_neg (lt_irrefl _)]
    unfold landed
    rw [hnone]
    split
    · rename_i heq
      cases heq
    · rfl
  · refine Or.inr ⟨_, n, hwrites, ?_, ?_⟩
    · have hend := (hok.laid.bounds hpos hp).2
      omega
    · have hsome : writeOf run after = some (p.offset + p.completed, n) := by
        unfold writeOf
        rw [hwrites, if_pos (by rw [List.length_cons]; omega)]
        rfl
      unfold landed
      rw [hsome]
      dsimp only
      rw [h.bodies v w hw hstreams]

/-- A byte of the version stays one. -/
theorem MultiOk.landed_keeps (h : MultiOk server version m run bodies f) (hs : run.step a = some after) {x : ℕ}
    (hx : f.byte x = some version) : (landed f bodies a run after).byte x = some version := by
  rcases h.landed_cases hs with ⟨-, hsame⟩ | ⟨offset, n, -, -, hput⟩
  · rwa [hsame]
  · rw [hput]
    exact PartFile.put_keeps hx

theorem MultiOk.step (h : MultiOk server version m run bodies f) (hs : run.step a = some after)
    (hsame : ∀ v, a ≠ .worker v .opened → bodies' v = bodies v) (hnew : ∀ v, a = .worker v .opened → bodies' v = version) :
    MultiOk server version m after bodies' (landed f bodies a run after) := by
  obtain ⟨pieceSize, hmin, hmax, hok⟩ := h.pieces
  refine ⟨h.total, ⟨pieceSize, hmin, hmax, hok.step hs⟩, fun x hx => ?_, fun v w hw hstreams => ?_, ?_⟩
  · rcases h.landed_cases hs with ⟨hwrites, -⟩ | ⟨offset, n, hwrites, -, hput⟩
    · unfold Run.written at hx
      rw [hwrites] at hx
      exact h.landed_keeps hs (h.bytes x hx)
    · unfold Run.written at hx
      rw [hwrites, List.any_cons, Bool.or_eq_true] at hx
      rcases hx with hx | hx
      · rw [hput, PartFile.byte_put, if_pos (of_decide_eq_true hx)]
      · exact h.landed_keeps hs (h.bytes x hx)
  · rcases Run.streams_step hs hw hstreams with heq | ⟨old, hold, hstreamed⟩
    · exact hnew v heq
    · by_cases heq : a = .worker v .opened
      · exact hnew v heq
      · rw [hsame v heq]
        exact h.bodies v old hold hstreamed
  · rcases h.landed_cases hs with ⟨-, hsame⟩ | ⟨offset, n, -, hle, hput⟩
    · rw [hsame]
      exact h.length
    · rw [hput]
      exact PartFile.length_put_le h.length hle

/-- What `save_piece_meta` writes while the workers run. -/
theorem MultiOk.save (h : MultiOk server version m run bodies f)
    (hsaved : savePieceMeta run.queue m.contentLength m.etag m.lastModified = some saved) :
    saved.contentLength = server.length version ∧ saved.etag = m.etag ∧ (saved.pieces.map (·.i)).Nodup ∧
      Backed (some f) version saved.pieceSize saved.pieces := by
  obtain ⟨pieceSize, hmin, hmax, hok⟩ := h.pieces
  unfold savePieceMeta at hsaved
  rw [Option.ite_none_right_eq_some] at hsaved
  obtain ⟨-, hsaved⟩ := hsaved
  cases hsaved
  refine ⟨h.total, rfl, nodup_saved run.queue, fun pp hpp k hk => ⟨f, rfl, ?_⟩⟩
  obtain ⟨p, hp, hc⟩ := mem_saved hpp
  have hlt : run.queue.pieceSize < 2 ^ 32 := by
    rw [hok.laid.size]
    exact hmax.trans_lt (by decide)
  have hoffset := (hok.laid.piece pp.i p hp).1
  dsimp only
  rw [Nat.mod_eq_of_lt hlt, hok.laid.size, ← hoffset]
  exact h.bytes _ (hok.written pp.i p hp _ (by omega) (by omega))

/-- A run that goes on to `sync_file` has the whole file. -/
theorem MultiOk.whole (h : MultiOk server version m run bodies f) {stallText : Text} {L errors : List Text} (herrors : run.errors = some L)
    (hperm : L.Perm errors) (hverdict : run.verdict stallText errors = none) : f.IsWhole server version := by
  obtain ⟨pieceSize, hmin, hmax, hok⟩ := h.pieces
  have hpos : 0 < pieceSize := lt_of_lt_of_le (by decide) hmin
  have hdone : ∀ p ∈ run.queue.pieces, p.state = .done := by
    rcases Run.verdict_none hverdict with rfl | hfinished
    · rw [List.perm_nil.mp hperm] at herrors
      exact hok.all_done herrors
    · intro p hp
      exact beq_iff_eq.mp (List.all_eq_true.mp hfinished p hp)
  refine PartFile.isWhole_of_bytes (h.total ▸ h.length) fun x hx => ?_
  rw [← h.total] at hx
  obtain ⟨p, hp⟩ := hok.laid.exists_piece hpos hx
  obtain ⟨hlo, hhi⟩ := (hok.laid.mem_piece hpos hx hp).mpr rfl
  rw [← hok.done _ p hp (hdone p (List.mem_of_getElem? hp))] at hhi
  exact h.bytes x (hok.written _ p hp x hlo hhi)

/-! ## Beginning an attempt -/

/-- What the choice comes from when it is for several connections. -/
theorem choose_cases (s : Attempts) (o : Settings) (existing : ℕ) (probe : Option ProbeResult) :
    (∃ m p, s.choose o existing probe = .loading m ∧ p.rangeSupported = true ∧ m.contentLength = p.contentLength ∧ m.etag = p.etag ∧
      (probe = some p ∨ ∃ saved ∈ s.sidecar, ∃ f ∈ s.part, probeFromSidecar saved f = some p)) ∨
    s.choose o existing probe = .dropping ∨ s.choose o existing probe = .asking := by
  have hsingle : ∀ b : Bool, (if b = true then Phase.dropping else .asking) = .dropping ∨ (if b = true then Phase.dropping else .asking) = .asking := by
    intro b
    cases b
    · exact Or.inr rfl
    · exact Or.inl rfl
  unfold choose
  dsimp only
  generalize hsidecar : (if (o.isHttp && probe.isNone && (decide (0 < existing) && s.sidecar.isSome)) = true then
    s.sidecar.bind fun saved => s.part.bind (probeFromSidecar saved) else none) = sidecarProbe
  split
  · split
    · rename_i p hp
      split
      · rename_i hgo
        simp only [Bool.and_eq_true] at hgo
        refine Or.inl ⟨_, p, rfl, hgo.1.1, rfl, rfl, ?_⟩
        rcases Option.or_eq_some_iff.mp hp with hprobe | ⟨-, rfl⟩
        · exact Or.inl hprobe
        · rw [Option.ite_none_right_eq_some] at hsidecar
          obtain ⟨saved, hsaved, hsidecar⟩ := Option.bind_eq_some_iff.mp hsidecar.2
          obtain ⟨f, hf, hsidecar⟩ := Option.bind_eq_some_iff.mp hsidecar
          exact Or.inr ⟨saved, hsaved, f, hf, hsidecar⟩
      · exact Or.inr (hsingle _)
    · exact Or.inr (hsingle _)
  · exact Or.inr (hsingle _)

/-- What an attempt begins with. -/
theorem start_cases {s s' : Attempts} {o : Settings} {answered : Option Bool} (hs : s.step server (.start o answered) = some s') :
    ∃ phase : Phase, s' = { s with phase := phase } ∧ (phase = .idle ∨ phase = .probed o s.existing none ∨
      ∃ ranges, phase = .probed o s.existing (some (probeOf server s.version ranges))) := by
  cases answered with
  | some ranges =>
    simp only [Attempts.step] at hs
    split at hs
    iterate 2
      · split at hs
        · cases hs
          exact ⟨_, rfl, Or.inr (Or.inr ⟨ranges, rfl⟩)⟩
        · cases hs
          exact ⟨_, rfl, Or.inr (Or.inl rfl)⟩
    · cases hs
  | none =>
    simp only [Attempts.step] at hs
    split at hs
    iterate 2
      · split at hs
        · cases hs
          refine ⟨_, rfl, ?_⟩
          split
          · exact Or.inl rfl
          · exact Or.inr (Or.inl rfl)
        · cases hs
          exact ⟨_, rfl, Or.inr (Or.inl rfl)⟩
    · cases hs

theorem probeFromSidecar_some {p : ProbeResult} (h : probeFromSidecar saved f = some p) :
    p.contentLength = saved.contentLength ∧ p.etag = saved.etag := by
  unfold probeFromSidecar at h
  rw [Option.ite_none_left_eq_some] at h
  obtain ⟨-, h⟩ := h
  cases h
  exact ⟨rfl, rfl⟩

/-- What an attempt takes over counts only bytes of the version that the sidecar counts. -/
theorem resumable_load {lastModified : Option Text}
    (hload : loadPieceMeta saved part contentLength etag lastModified = some (pieceSize, pieces))
    (hnodup : (saved.pieces.map (·.i)).Nodup) (hbacked : Backed part version pieceSize pieces) :
    Resumable part version contentLength pieceSize pieces := by
  obtain ⟨-, hmin, hmax, -, f, hf, hlength, heq⟩ := loadPieceMeta_some hload
  cases heq
  refine ⟨hmin, hmax, nodup_clampPieces hnodup _, hbacked, fun g hg => ?_⟩
  rw [Option.mem_unique hg hf]
  exact hlength

/-- The pieces that are left of a sidecar count no more than it does. -/
theorem backed_load {lastModified : Option Text}
    (hload : loadPieceMeta saved part contentLength etag lastModified = some (pieceSize, pieces))
    (hbacked : Backed part version saved.pieceSize saved.pieces) : Backed part version pieceSize pieces := by
  obtain ⟨-, -, -, -, f, -, -, heq⟩ := loadPieceMeta_some hload
  cases heq
  intro pp hpp k hk
  obtain ⟨old, hold, hi, hc⟩ := mem_clampPieces hpp
  rw [hi]
  exact hbacked old hold k (hk.trans_le hc)

theorem Resumable.opened
    (h : Resumable part version contentLength pieceSize pieces) : Resumable (some (part.getD .empty)) version contentLength pieceSize pieces := by
  cases part with
  | some f => exact h
  | none =>
    refine ⟨h.min, h.max, h.nodup, fun pp hpp k hk => ?_, fun f hf => ?_⟩
    · obtain ⟨f, hf, -⟩ := h.backed pp hpp k hk
      cases hf
    · cases hf
      exact Nat.zero_le _

/-! ## The end of an attempt -/

/-- The file that is renamed. -/
theorem finalised_append {finalised : List (Option Text × PartFile)} {P : Option Text → PartFile → Prop}
    (h : ∀ e f, (e, f) ∈ finalised → P e f) (hpart : ∀ f ∈ part, P etag f) :
    ∀ e f, (e, f) ∈ part.toList.map (etag, ·) ++ finalised → P e f := by
  intro e f hmem
  rcases List.mem_append.mp hmem with hnew | hold
  · obtain ⟨g, hg, heq⟩ := List.mem_map.mp hnew
    cases heq
    exact hpart f (Option.mem_toList.mp hg)
  · exact h e f hold

theorem any_errors {errors : List Text} (h : (run.errors.any fun L => L.isPerm errors) = true) :
    ∃ L, run.errors = some L ∧ L.Perm errors := by
  cases hL : run.errors with
  | none =>
    rw [hL] at h
    cases h
  | some L =>
    rw [hL] at h
    exact ⟨L, rfl, List.isPerm_iff.mp h⟩

end Attempts

end Http

end Risuko
