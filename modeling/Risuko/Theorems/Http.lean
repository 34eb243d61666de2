import Risuko.Lemmas.HttpSteady
import Risuko.Lemmas.HttpVersions
import Risuko.Http.Single

/-!
# HTTP downloads over whole runs

However the workers of a multi-connection download go on beside each other, each byte of the file is written where it belongs, and the download is
taken for complete only when it is. Over many attempts at one part file, what is finalised is whole when no step takes a hole for what is written, and
of one version when no step leaves the end of a longer file.
-/

namespace Risuko

namespace Http

namespace Run

variable {contentLength : ℕ} {s : Run}

/-! ## Multi-connection downloads -/

/-- In every run: the pieces tile the file; no two workers hold one piece; a step writes at most one chunk, inside the piece of its worker and behind
what the piece has come to, which is the first bytes of the piece; and when all workers have exited and `run_multi_chunk` goes on to `sync_file`, every
piece is done and the whole file is there. -/
theorem multi_chunk_complete (h : s.Reachable contentLength) :
    ((∀ x < contentLength, ∃! i : ℕ, ∃ p : Piece, s.queue.pieces[i]? = some p ∧ p.offset ≤ x ∧ x < p.offset + p.length) ∧
      ∀ p ∈ s.queue.pieces, 0 < p.length ∧ p.offset + p.length ≤ contentLength) ∧
    (∀ (v v' : ℕ) (w w' : Worker) (i : ℕ), s.workers[v]? = some w → s.workers[v']? = some w' → w.holds = some i → w'.holds = some i → v = v') ∧
    (∀ a s', s.step a = some s' →
      s'.writes = s.writes ∨ ∃ (v : ℕ) (w : Worker) (i : ℕ) (p : Piece) (n : ℕ), s.workers[v]? = some w ∧ w.holds = some i ∧
        s.queue.pieces[i]? = some p ∧ s'.writes = (p.offset + p.completed, n) :: s.writes ∧ p.completed + n ≤ p.length) ∧
    (∀ p ∈ s.queue.pieces, p.completed ≤ p.length ∧ ∀ x, p.offset ≤ x → x < p.offset + p.completed → s.written x = true) ∧
    ∀ stallText L errors, s.errors = some L → errors.Perm L → s.verdict stallText errors = none →
      (∀ p ∈ s.queue.pieces, p.state = .done ∧ p.completed = p.length) ∧ ∀ x < contentLength, s.written x = true := by
  obtain ⟨pieceSize, hpos, hok⟩ := h.ok
  have hmem : ∀ x < contentLength, ∃ p : Piece, s.queue.pieces[x / pieceSize]? = some p ∧ p.offset ≤ x ∧ x < p.offset + p.length := by
    intro x hx
    obtain ⟨p, hp⟩ := hok.laid.exists_piece hpos hx
    exact ⟨p, hp, (hok.laid.mem_piece hpos hx hp).mpr rfl⟩
  refine ⟨⟨fun x hx => ⟨x / pieceSize, hmem x hx, ?_⟩, fun p hp => ?_⟩, hok.one, fun a s' hs => ?_, fun p hp => ?_, ?_⟩
  · rintro i ⟨p, hp, hin⟩
    exact (hok.laid.mem_piece hpos hx hp).mp hin
  · obtain ⟨i, hi⟩ := List.mem_iff_getElem?.mp hp
    exact hok.laid.bounds hpos hi
  · rcases hok.write_inside hs with hsame | ⟨v, -, w, i, p, n, -, hw, -, hholds, hp, hwrites⟩
    · exact Or.inl hsame
    · exact Or.inr ⟨v, w, i, p, n, hw, hholds, hp, hwrites⟩
  · obtain ⟨i, hi⟩ := List.mem_iff_getElem?.mp hp
    exact ⟨hok.le i p hi, hok.written i p hi⟩
  · intro stallText L errors herrors hperm hverdict
    have hdone : ∀ p ∈ s.queue.pieces, p.state = .done := by
      rcases verdict_none hverdict with rfl | hfinished
      · rw [List.nil_perm.mp hperm] at herrors
        exact hok.all_done herrors
      · intro p hp
        exact beq_iff_eq.mp (List.all_eq_true.mp hfinished p hp)
    refine ⟨fun p hp => ⟨hdone p hp, ?_⟩, fun x hx => ?_⟩
    · obtain ⟨i, hi⟩ := List.mem_iff_getElem?.mp hp
      exact hok.done i p hi (hdone p hp)
    · obtain ⟨p, hp, hlo, hhi⟩ := hmem x hx
      rw [← hok.done _ p hp (hdone p (List.mem_of_getElem? hp))] at hhi
      exact hok.written _ p hp x hlo hhi

/-- A file of three bytes, in one piece, and two workers. -/
def threeBytes : Run := ⟨openQueue 3 2 none, [.idle, .idle], false, false, false, []⟩

/-- The first worker stops short once, and the second sees no free piece and none in flight only when all is there. -/
def threeByteSteps : List Action :=
  [.worker 0 (.start 0), .worker 0 .tryClaim, .worker 1 (.start 0), .worker 1 .tryClaim, .worker 1 .tryClaim, .worker 0 .readCompleted,
    .worker 0 .opened, .worker 0 (.receive 1), .worker 0 .write, .worker 0 (.streamEnds (.ok ())), .worker 0 .finished, .worker 0 (.settle none),
    .worker 0 (.start 0), .worker 0 .tryClaim, .worker 0 .readCompleted, .worker 0 .opened, .worker 0 (.receive 9), .worker 0 .write,
    .worker 0 .finished, .worker 0 (.settle none), .worker 1 .look, .worker 1 .look, .worker 0 (.start 1), .worker 0 .tryClaim, .worker 0 .tryClaim,
    .worker 0 .look, .worker 0 .look]

/-- Three bytes by two workers, the later part first. -/
theorem multi_chunk_complete_three :
    ∃ s : Run, s.Reachable 3 ∧ s.errors = some [] ∧ s.verdict [] [] = none ∧ s.writes = [(1, 2), (0, 1)] ∧ ∀ x < 3, s.written x = true := by
  obtain ⟨s, hrun, herrors, hverdict, hwrites⟩ :
      ∃ s ∈ runActions step threeBytes threeByteSteps, s.errors = some [] ∧ s.verdict [] [] = none ∧ s.writes = [(1, 2), (0, 1)] := by
    decide +kernel
  have hinitial : threeBytes.Initial 3 := by
    refine ⟨⟨2, none, rfl, nofun⟩, ⟨1, rfl⟩, fun p hp x hlo hhi => ?_⟩
    rw [(rests_withPieceSize p hp).2.2] at hhi
    exact absurd hhi (not_lt.mpr hlo)
  have hreachable : s.Reachable 3 := Reach.runActions hrun (.init hinitial)
  exact ⟨s, hreachable, herrors, hverdict, hwrites, ((multi_chunk_complete hreachable).2.2.2.2 [] [] [] herrors .rfl hverdict).2⟩

end Run

namespace Attempts

/-! ## A resource that stays -/

/-- While the resource stays, no step takes a hole of the part file for what is written, and no body of a single connection ends before the resource
does, every file that is finalised is the resource, byte for byte. -/
theorem finalises_whole {server : Server} {version : ℕ} {s : Attempts}
    (h : Reach (fun s => s.Initial ∧ s.version = version)
      (fun s s' => ∃ a, (a.changes = false ∧ s.findsHole a = false ∧ s.endsShort server a = false) ∧ s.step server a = some s') s) :
    ∀ etag f, (etag, f) ∈ s.finalised → f.IsWhole server version := by
  have hsteady : Steady server version s := by
    refine h.invariant ?_ ?_
    · rintro s ⟨⟨hpart, hsidecar, hphase, hfinalised⟩, hcurrent⟩
      refine ⟨hcurrent, ?_, ?_, ?_, ?_⟩
      · rw [hpart]
        nofun
      · rw [hsidecar]
        nofun
      · rw [hphase]
        trivial
      · rw [hfinalised]
        nofun
    · rintro s s' hok ⟨a, ⟨hsame, hsafe, hwhole⟩, hs⟩
      exact hok.step hsame hsafe hwhole hs
  exact hsteady.finalised

/-- Three bytes, with a strong ETag. -/
def taggedServer : Server := ⟨fun _ => 3, fun _ => some "\"a\"".toList, fun _ => none⟩

def multiSettings : Settings := ⟨true, 2, 1, false, false, .falloc⟩

def noFiles : Attempts := ⟨0, none, none, .idle, []⟩

/-- An attempt with one worker, up to the request. -/
def toRequest : List AttemptAction :=
  [.start multiSettings (some true), .choose, .load, .openPart, .allocates (some 0), .run (.worker 0 (.start 0)) false,
    .run (.worker 0 .tryClaim) false, .run (.worker 0 .readCompleted) false, .run (.worker 0 .opened) true]

/-- The process crashes after one byte, and the next attempt goes on behind it. -/
def crashedOnce : List AttemptAction :=
  List.flatten [toRequest, [.run (.worker 0 (.receive 1)) false, .run (.worker 0 .write) false, .save, .crash], toRequest,
    [.run (.worker 0 (.receive 2)) false, .run (.worker 0 .write) false, .run (.worker 0 .finished) false,
      .run (.worker 0 (.settle none)) false, .run (.worker 0 (.start 0)) false, .run (.worker 0 .tryClaim) false,
      .run (.worker 0 .tryClaim) false, .run (.worker 0 .look) false, .run (.worker 0 .look) false, .conclude [] [], .ends .verified]]

/-- The attempt after a crash finalises the whole file. -/
theorem finalises_whole_crashed :
    ∃ (s : Attempts) (etag : Option Text) (f : PartFile), (etag, f) ∈ s.finalised ∧ f.IsWhole taggedServer 0 := by
  obtain ⟨s, hrun, hfinalised⟩ : ∃ s ∈ runActions
      (fun s a => if a.changes = false ∧ s.findsHole a = false ∧ s.endsShort taggedServer a = false then step taggedServer s a else none)
      noFiles crashedOnce, s.finalised ≠ [] := by
    decide +kernel
  have h : Reach (fun s => s.Initial ∧ s.version = 0)
      (fun s s' => ∃ a, (a.changes = false ∧ s.findsHole a = false ∧ s.endsShort taggedServer a = false) ∧ s.step taggedServer a = some s') s :=
    Reach.runGuarded hrun (.init ⟨⟨rfl, rfl, rfl, rfl⟩, rfl⟩)
  obtain ⟨⟨etag, f⟩, hmem⟩ := List.exists_mem_of_ne_nil _ hfinalised
  exact ⟨s, etag, f, hmem, finalises_whole h etag f hmem⟩

/-- Three bytes, without validators. -/
def plainServer : Server := ⟨fun _ => 3, fun _ => none, fun _ => none⟩

/-- The process crashes when the part file has its length and none of its bytes, and a single connection takes it for complete. -/
def emptyPart : List AttemptAction :=
  [.start multiSettings (some true), .choose, .load, .openPart, .allocates (some 0), .crash, .start { multiSettings with split := 1 } none, .choose,
    .ask (.notSatisfiable true), .ends .verified]

/-- The next attempt, of one connection, takes the length that was allocated for what is written. -/
theorem finalises_hole :
    ¬ ∀ (server : Server) (version : ℕ) (s : Attempts),
      Reach (fun s => s.Initial ∧ s.version = version) (fun s s' => ∃ a, a.changes = false ∧ s.step server a = some s') s →
      ∀ etag f, (etag, f) ∈ s.finalised → f.IsWhole server version := by
  intro hclaim
  obtain ⟨s, hrun, hhole⟩ : ∃ s ∈ runActions (fun s a => if a.changes = false then step plainServer s a else none) noFiles emptyPart,
      ∃ e ∈ s.finalised, e.2.length = 3 ∧ e.2.byte 0 = none := by
    decide +kernel
  obtain ⟨⟨etag, f⟩, hmem, hlength, hbyte⟩ := hhole
  have h : Reach (fun s => s.Initial ∧ s.version = 0) (fun s s' => ∃ a, a.changes = false ∧ s.step plainServer a = some s') s :=
    Reach.runGuarded hrun (.init ⟨⟨rfl, rfl, rfl, rfl⟩, rfl⟩)
  have hwhole := (hclaim plainServer 0 s h etag f hmem).2 0 (by rw [hlength]; decide)
  rw [hbyte] at hwhole
  cases hwhole

-- A body that ends after one byte of three is finalised as well.
example : ∃ s ∈ runActions (step plainServer) noFiles
    [.start { multiSettings with split := 1 } none, .choose, .ask .whole, .receive 1, .bodyEnds, .ends .verified], ∃ e ∈ s.finalised,
        e.2.length = 1 := by
  decide +kernel

/-! ## A resource that changes -/

/-- While the attempts are with several connections, every version has its own strong ETag, and no step leaves the end of a longer part file: what
an attempt has restored from the sidecar, and what its workers write, is of the version with the ETag that it was started with; a file that is finalised
is this version; and an attempt that has seen a change removes the part file and the sidecar before another begins. -/
theorem keeps_one_version {server : Server} (hserver : server.Tagged) {s : Attempts}
    (h : Reach Initial (fun s s' => ∃ a, (s.staysMulti a = true ∧ s.findsTail a = false) ∧ s.step server a = some s') s) :
    (∀ m run bodies, s.phase = .multi m run bodies → ∃ v, server.etag v = m.etag ∧
      (∃ f ∈ s.part, ∀ p ∈ run.queue.pieces, ∀ x, p.offset ≤ x → x < p.offset + p.completed → f.byte x = some v) ∧
      ∀ a tellsTotal s', s.step server (.run a tellsTotal) = some s' → ∃ after bodies', s'.phase = .multi m after bodies' ∧
        (after.writes = run.writes ∧ s'.part = s.part ∨
          ∃ offset n, after.writes = (offset, n) :: run.writes ∧ s'.part = s.part.map (·.put offset n v))) ∧
    (∀ etag f, (etag, f) ∈ s.finalised → ∃ v, server.etag v = etag ∧ f.IsWhole server v) ∧
    (∀ m run bodies stallText errors s', s.phase = .multi m run bodies → run.changed = true →
      s.step server (.conclude stallText errors) = some s' → s'.phase = .removing) ∧
    (s.phase = .removing ∨ s.phase = .clearingStale → ∀ o answered, s.step server (.start o answered) = none) ∧
    (s.phase = .stale → s.part = none ∧ s.sidecar = none) := by
  have hversioned : Versioned server s := by
    refine h.invariant ?_ ?_
    · rintro s ⟨hpart, hsidecar, hphase, hfinalised⟩
      refine ⟨?_, ?_, ?_⟩
      · rw [hsidecar]
        nofun
      · rw [hphase]
        trivial
      · rw [hfinalised]
        nofun
    · rintro s s' hok ⟨a, ⟨hchoice, hsafe⟩, hs⟩
      exact hok.step hserver hchoice hsafe hs
  have hok := hversioned.phase
  refine ⟨fun m run bodies hphase => ?_, hversioned.finalised, fun m run bodies stallText errors s' hphase hchanged hs => ?_, ?_, fun hphase => ?_⟩
  · rw [hphase] at hok
    obtain ⟨v, hetag, -, f, hf, hmulti⟩ := hok
    obtain ⟨pieceSize, -, -, hrun⟩ := hmulti.pieces
    refine ⟨v, hetag, ⟨f, hf, fun p hp x hlo hhi => ?_⟩, fun a tellsTotal s' hs => ?_⟩
    · obtain ⟨i, hi⟩ := List.mem_iff_getElem?.mp hp
      exact hmulti.bytes x (hrun.written i p hi x hlo hhi)
    · simp only [step, hphase] at hs
      rw [Option.ite_none_left_eq_some] at hs
      obtain ⟨after, hafter, rfl⟩ := Option.map_eq_some_iff.mp hs.2
      refine ⟨after, _, rfl, ?_⟩
      rw [Option.mem_def.mp hf]
      rcases hmulti.landed_cases hafter with ⟨hwrites, hsame⟩ | ⟨offset, n, hwrites, -, hput⟩
      · exact Or.inl ⟨hwrites, congrArg some hsame⟩
      · exact Or.inr ⟨offset, n, hwrites, congrArg some hput⟩
  · simp only [step, hphase] at hs
    rw [Option.ite_none_right_eq_some] at hs
    obtain ⟨-, hs⟩ := hs
    have hverdict : run.verdict stallText errors = some "Download will retry: stale partial file removed (server file changed)".toList := by
      unfold Run.verdict
      rw [if_pos hchanged]
    rw [hverdict] at hs
    dsimp only at hs
    rw [if_pos hchanged] at hs
    cases hs
    rfl
  · rintro (hphase | hphase) o answered
    · simp only [step, hphase]
    · simp only [step, hphase]
  · rw [hphase] at hok
    exact hok

/-- Five bytes at first, and three in every later version. -/
def shrinkingServer : Server := ⟨fun v => if v = 0 then 5 else 3, fun v => some ('"' :: List.replicate v 'a' ++ ['"']), fun _ => none⟩

theorem shrinkingServer_tagged : shrinkingServer.Tagged where
  strong := by
    refine fun v => ⟨_, rfl, ?_⟩
    cases v with
    | zero => decide
    | succ v =>
      have hlast : ('a' :: (List.replicate v 'a' ++ ['"'])).getLast? = some '"' := by
        rw [← List.cons_append, List.getLast?_concat]
      simp only [isStrongEtag, List.replicate_succ, List.cons_append, List.getLast?_cons_cons, hlast]
      simp
      rfl
  one := by
    intro v v' h
    have hlength := congrArg (Option.map List.length) h
    simpa [shrinkingServer] using hlength

def unallocated : Settings := { multiSettings with mode := .none }

/-- A worker writes `n` bytes, all that its piece has. -/
def wholePiece (n : ℕ) : List AttemptAction :=
  [.run (.worker 0 (.receive n)) false, .run (.worker 0 .write) false]

/-- The worker ends. -/
def workerEnds : List AttemptAction :=
  [.run (.worker 0 .finished) false, .run (.worker 0 (.settle none)) false, .run (.worker 0 (.start 0)) false, .run (.worker 0 .tryClaim) false,
    .run (.worker 0 .tryClaim) false, .run (.worker 0 .look) false, .run (.worker 0 .look) false, .conclude [] []]

def toUnallocatedRequest : List AttemptAction :=
  [.start unallocated (some true), .choose, .load, .openPart, .allocates (some 0), .run (.worker 0 (.start 0)) false,
    .run (.worker 0 .tryClaim) false, .run (.worker 0 .readCompleted) false, .run (.worker 0 .opened) true]

/-- Three bytes come in, the process crashes, and the next attempt finds another version. -/
theorem keeps_one_version_shrunk :
    ∃ (s : Attempts) (etag : Option Text) (f : PartFile), (etag, f) ∈ s.finalised ∧ ∃ v, shrinkingServer.etag v = etag ∧
        f.IsWhole shrinkingServer v := by
  obtain ⟨s, hrun, hfinalised⟩ : ∃ s ∈ runActions
      (fun (s : Attempts) a => if s.staysMulti a = true ∧ s.findsTail a = false then step shrinkingServer s a else none) noFiles
      (List.flatten [toUnallocatedRequest, wholePiece 3, [.save, .crash, .changeResource 1], toUnallocatedRequest, wholePiece 3, workerEnds,
        [.ends .verified]]), s.finalised ≠ [] := by
    decide +kernel
  have h : Reach Initial (fun s s' => ∃ a, (s.staysMulti a = true ∧ s.findsTail a = false) ∧ s.step shrinkingServer a = some s') s :=
    Reach.runGuarded hrun (.init ⟨rfl, rfl, rfl, rfl⟩)
  obtain ⟨⟨etag, f⟩, hmem⟩ := List.exists_mem_of_ne_nil _ hfinalised
  exact ⟨s, etag, f, hmem, (keeps_one_version shrinkingServer_tagged h).2.1 etag f hmem⟩

/-- Without allocation, the part file keeps the end of the longer version. -/
theorem keeps_two_versions :
    ¬ ∀ (server : Server), server.Tagged → ∀ s : Attempts,
      Reach Initial (fun s s' => ∃ a, s.staysMulti a = true ∧ s.step server a = some s') s →
      ∀ etag f, (etag, f) ∈ s.finalised → ∃ v, server.etag v = etag ∧ f.IsWhole server v := by
  intro hclaim
  obtain ⟨s, hrun, hlong⟩ : ∃ s ∈ runActions (fun (s : Attempts) a => if s.staysMulti a = true then step shrinkingServer s a else none) noFiles
      (List.flatten [toUnallocatedRequest, wholePiece 5, [.crash, .changeResource 1], toUnallocatedRequest, wholePiece 3, workerEnds,
          [.ends .verified]]),
      ∃ e ∈ s.finalised, e.1 = shrinkingServer.etag 1 ∧ e.2.length = 5 := by
    decide +kernel
  obtain ⟨⟨etag, f⟩, hmem, hetag, hlength⟩ := hlong
  have h : Reach Initial (fun s s' => ∃ a, s.staysMulti a = true ∧ s.step shrinkingServer a = some s') s :=
    Reach.runGuarded hrun (.init ⟨rfl, rfl, rfl, rfl⟩)
  obtain ⟨v, hv, hwhole⟩ := hclaim shrinkingServer shrinkingServer_tagged s h etag f hmem
  obtain rfl := shrinkingServer_tagged.one v 1 (hv.trans hetag)
  rw [hwhole.1] at hlength
  cases hlength

end Attempts

/-! ## Single-connection downloads -/

/-- An empty part file is cut to what it is. -/
theorem PartFile.setLen_zero {f : PartFile} (h : f.length = 0) : f.setLen 0 = f := by
  have hbyte : ∀ x, f.byte x = none := fun x => by
    by_contra hx
    have := f.inside x hx
    omega
  cases f
  subst h
  simp only [setLen, Nat.not_lt_zero, if_false, PartFile.mk.injEq, true_and]
  exact (funext hbyte).symm

/-- `run_single_download` reads a response here and the kind of an answer in `Attempts`: both make the same of the part file. -/
theorem Single.answered_eq {server : Server} {s s' : Attempts} {answer : Answer} {r : Response}
    (hr : r.Is s.existing (server.length s.version) answer) (h : s.answered server answer = some s') (finalised : List PartFile) :
    (⟨s.version, s.part, .idle, finalised⟩ : Single).answered r true = ⟨s'.version, s'.part, s'.phase.single, finalised⟩ := by
  have hsize : (⟨s.version, s.part, .idle, finalised⟩ : Single).existingSize = s.existing := rfl
  unfold Single.answered
  rw [hsize]
  cases answer with
  | fails retry =>
    cases h
    obtain hblock | ⟨hstatus, hother⟩ := hr
    · rw [if_pos hblock]
      cases retry <;> rfl
    · have hexact : ¬ (r.status = 416 ∧ 0 < s.existing ∧ unsatisfiedRangeTotal r.headers = some s.existing) := fun h => hother ⟨h.1, h.2.1⟩
      rw [if_neg hexact, if_neg hother, if_pos hstatus, ite_self]
      cases retry <;> rfl
  | notSatisfiable tells =>
    obtain ⟨hopen, hstatus, htotal⟩ := hr
    simp only [Attempts.answered, Option.ite_none_right_eq_some] at h
    obtain ⟨⟨hpos, -⟩, h⟩ := h
    rw [hopen, if_neg Bool.false_ne_true, htotal]
    by_cases hfull : tells = true ∧ server.length s.version = s.existing
    · rw [if_pos hfull] at h
      cases h
      rw [if_pos ⟨hstatus, hpos, by rw [if_pos hfull.1, hfull.2]⟩]
      rfl
    · rw [if_neg hfull] at h
      cases h
      rw [if_neg (fun hall => hfull (by simpa using hall.2.2)), if_pos ⟨hstatus, hpos⟩]
      rfl
  | whole =>
    obtain ⟨hopen, hstatus, h206⟩ := hr
    cases h
    rw [hopen, if_neg Bool.false_ne_true, if_neg (by omega), if_neg (by omega), if_neg (not_le.mpr hstatus)]
    by_cases hpos : 0 < s.existing
    · rw [if_pos ⟨hpos, h206⟩]
      simp only [Single.openPart, hsize, hpos, and_self, if_true]
      rfl
    · have hzero : s.existing = 0 := by omega
      rw [if_neg (by omega), if_neg (by omega), hzero]
      simp only [Single.openPart, hsize, hzero, lt_irrefl, and_false, if_false]
      rw [PartFile.setLen_zero]
      · rfl
      · unfold Attempts.existing at hzero
        cases hpart : s.part with
        | none => rfl
        | some f => rwa [hpart] at hzero
  | rest =>
    obtain ⟨hopen, hstatus, hrange⟩ := hr
    simp only [Attempts.answered, Option.ite_none_right_eq_some] at h
    obtain ⟨-, h⟩ := h
    cases h
    rw [hopen, if_neg Bool.false_ne_true, if_neg (by omega), if_neg (by omega), if_neg (not_le.mpr hstatus)]
    have hopened : (⟨s.version, s.part, .idle, finalised⟩ : Single).openPart s.existing =
        ⟨s.version, some (s.part.getD .empty), .receiving s.existing s.version, finalised⟩ := by
      simp only [Single.openPart, hsize]
      rw [if_neg (by omega)]
    obtain hzero | ⟨h206, hstart⟩ := hrange
    · rw [if_neg (by omega), if_neg (by omega), hopened]
      rfl
    · by_cases hpos : 0 < s.existing
      · rw [if_neg (by omega), if_pos ⟨hpos, h206⟩, if_pos (by simpa [Single.rangeValid, hsize] using hstart), hopened]
        rfl
      · rw [if_neg (by omega), if_neg (by omega), hopened]
        rfl
  | wrongRange =>
    obtain ⟨hopen, hstatus, hstart⟩ := hr
    simp only [Attempts.answered, Option.ite_none_right_eq_some] at h
    obtain ⟨hpos, h⟩ := h
    cases h
    rw [hopen, if_neg Bool.false_ne_true, if_neg (by omega), if_neg (by omega), if_neg (by omega), if_neg (by omega), if_pos ⟨hpos, hstatus⟩,
      if_neg (by simpa [Single.rangeValid, hsize] using hstart)]
    rfl

/-- All bytes of the file are there, and of this version. -/
def PartFile.OfVersion (f : PartFile) (version : ℕ) : Prop := ∀ x < f.length, f.byte x = some version

def PartFile.OneVersion (f : PartFile) : Prop := ∃ version, f.OfVersion version

theorem PartFile.ofVersion_empty (version : ℕ) : PartFile.empty.OfVersion version := fun _ hx => absurd hx (Nat.not_lt_zero _)

/-- What is written behind the file, of its version, keeps the version. -/
theorem PartFile.OfVersion.put {f : PartFile} {version : ℕ} (h : f.OfVersion version) (n : ℕ) :
    (f.put f.length n version).OfVersion version ∧ (f.put f.length n version).length = f.length + n := by
  refine ⟨fun x hx => ?_, ?_⟩
  · dsimp only [PartFile.put] at hx ⊢
    split
    · rfl
    rename_i hout
    refine h x ?_
    split at hx
    · exact hx
    · rw [max_eq_right (Nat.le_add_right _ _)] at hx
      omega
  · dsimp only [PartFile.put]
    split
    · rename_i hn
      rw [hn, Nat.add_zero]
    · exact max_eq_right (Nat.le_add_right _ _)

namespace Single

variable {s s' : Single}

/-- The part file has one version, and it is the one that is received. -/
structure Uniform (s : Single) : Prop where
  part : ∀ f ∈ s.part, f.OneVersion
  receiving : ∀ offset version, s.phase = .receiving offset version → ∃ f, s.part = some f ∧ f.length = offset ∧ f.OfVersion version
  finalised : ∀ f ∈ s.finalised, f.OneVersion

/-- At the start there is no part file. -/
theorem Initial.uniform (h : s.Initial) : s.Uniform := by
  obtain ⟨hpart, hphase, hfinalised⟩ := h
  refine ⟨fun f hf => ?_, fun offset version hreceiving => ?_, fun f hf => ?_⟩
  · rw [hpart] at hf
    cases hf
  · rw [hphase] at hreceiving
    cases hreceiving
  · rw [hfinalised] at hf
    cases hf

namespace Uniform

/-- A phase in which nothing is received. -/
theorem enter (h : s.Uniform) {phase : SinglePhase} (hphase : ∀ offset version, phase ≠ .receiving offset version) :
    Uniform { s with phase := phase } :=
  ⟨h.part, fun offset version hreceiving => absurd hreceiving (hphase offset version), h.finalised⟩

/-- A stale part file is removed or kept as it is. -/
theorem removeStale (h : s.Uniform) (hidle : s.phase = .idle) (removes : Bool) : (s.removeStale removes).Uniform := by
  unfold Single.removeStale
  split
  · refine ⟨fun f hf => absurd hf (Option.not_mem_none f), fun offset version hreceiving => ?_, h.finalised⟩
    rw [show s.phase = .receiving offset version from hreceiving] at hidle
    cases hidle
  · exact h

/-- The body is written behind the part file, which has its version. -/
theorem openPart (h : s.Uniform) {writeOffset : ℕ} (hstart : writeOffset = 0 ∨ writeOffset = s.existingSize ∧ ∀ f ∈ s.part, f.OfVersion s.version) :
    (s.openPart writeOffset).Uniform := by
  have hopen : ∃ f, (s.openPart writeOffset).part = some f ∧ f.length = writeOffset ∧ f.OfVersion s.version := by
    refine ⟨_, rfl, ?_⟩
    split
    · rename_i hcut
      exact ⟨hcut.1.symm, fun x hx => absurd hx (Nat.not_lt_zero _)⟩
    · rename_i hkept
      cases hpart : s.part with
      | none =>
        refine ⟨?_, PartFile.ofVersion_empty _⟩
        unfold existingSize at hstart
        rw [hpart] at hstart
        obtain hzero | hsize := hstart
        · exact hzero.symm
        · exact hsize.1.symm
      | some f =>
        have hsize : s.existingSize = f.length := by
          unfold existingSize
          rw [hpart]
          rfl
        rw [hsize] at hkept hstart
        rw [Option.getD_some]
        obtain hzero | ⟨hend, hversion⟩ := hstart
        · have hempty : f.length = 0 := by omega
          exact ⟨hempty.trans hzero.symm, fun x hx => absurd hx (by omega)⟩
        · exact ⟨hend.symm, hversion f hpart⟩
  refine ⟨fun f hf => ?_, fun offset version hreceiving => ?_, h.finalised⟩
  · obtain ⟨g, hg, -, hversion⟩ := hopen
    rw [hg] at hf
    cases hf
    exact ⟨_, hversion⟩
  · cases hreceiving
    exact hopen

/-- If an answer does not mix versions, the part file has the version of the body that is to be written behind it. -/
theorem answered (h : s.Uniform) (hidle : s.phase = .idle) {r : Response} {removes : Bool} (hfree : s.mixes (.answer r removes) = false) :
    (s.answered r removes).Uniform := by
  unfold Single.answered
  split
  · exact h
  split
  · exact h.enter fun _ _ hphase => by cases hphase
  split
  · exact h.removeStale hidle removes
  split
  · exact h
  split
  · exact h.openPart (.inl rfl)
  split
  · rename_i hresumes
    split
    · rename_i hvalid
      refine h.openPart (.inr ⟨rfl, fun f hf x hx => ?_⟩)
      rw [Option.mem_def] at hf
      unfold mixes at hfree
      dsimp only at hfree
      rw [decide_eq_true hresumes.1, decide_eq_true hresumes.2, hvalid, hf, Option.any_some, Bool.true_and, Bool.true_and, Bool.true_and,
        List.any_eq_false] at hfree
      have hsame := hfree x (List.mem_range.mpr hx)
      rw [bne_iff_ne, not_not] at hsame
      exact hsame
    · exact h.removeStale hidle removes
  · rename_i hignored hresumes
    -- The part file is not there or empty.
    have hempty : s.existingSize = 0 := by
      by_contra hpos
      by_cases hstatus : r.status = 206
      · exact hresumes ⟨Nat.pos_of_ne_zero hpos, hstatus⟩
      · exact hignored ⟨Nat.pos_of_ne_zero hpos, hstatus⟩
    exact h.openPart (.inl hempty)

/-- Each step keeps the part file of one version, if no answer mixes versions. -/
theorem step (h : s.Uniform) {a : SingleAction} (hfree : s.mixes a = false) (hstep : s.step a = some s') : s'.Uniform := by
  cases a with
  | replace version =>
    cases hstep
    exact ⟨h.part, h.receiving, h.finalised⟩
  | answer r removes =>
    unfold Single.step at hstep
    dsimp only at hstep
    split at hstep
    · rename_i hidle
      cases hstep
      exact h.answered hidle hfree
    · cases hstep
  | receive n =>
    unfold Single.step at hstep
    dsimp only at hstep
    split at hstep
    · rename_i offset version hphase
      cases hstep
      obtain ⟨f, hpart, rfl, hversion⟩ := h.receiving _ _ hphase
      obtain ⟨hput, hlength⟩ := hversion.put n
      rw [hpart, Option.map_some]
      refine ⟨fun g hg => ?_, fun offset version' hreceiving => ?_, h.finalised⟩
      · cases hg
        exact ⟨_, hput⟩
      · cases hreceiving
        exact ⟨_, rfl, hlength, hput⟩
    · cases hstep
  | bodyEnds =>
    unfold Single.step at hstep
    dsimp only at hstep
    split at hstep
    · cases hstep
      exact h.enter fun _ _ hphase => by cases hphase
    · cases hstep
  | fails =>
    cases hstep
    exact h.enter fun _ _ hphase => by cases hphase
  | concludes ending =>
    unfold Single.step at hstep
    dsimp only at hstep
    split at hstep
    · cases ending with
      | failed =>
        cases hstep
        exact h.enter fun _ _ hphase => by cases hphase
      | unverified =>
        cases hstep
        exact ⟨fun f hf => absurd hf (Option.not_mem_none f), fun _ _ hphase => (by cases hphase), h.finalised⟩
      | verified =>
        cases hstep
        refine ⟨fun f hf => absurd hf (Option.not_mem_none f), fun _ _ hphase => (by cases hphase), fun f hf => ?_⟩
        obtain hf | hf := List.mem_append.mp hf
        · exact h.part f (Option.mem_toList.mp hf)
        · exact h.finalised f hf
    · cases hstep

end Uniform

/-- Over all attempts at a part file: when no response is taken to go on with a part file of another version than the one that the server has, each file
that is finalised has all its bytes of one version. -/
theorem single_one_version (h : Reach Initial (fun s s' => ∃ a, s.mixes a = false ∧ s.step a = some s') s) : ∀ f ∈ s.finalised, f.OneVersion := by
  have huniform : s.Uniform :=
    h.invariant (fun _ hinit => hinit.uniform) fun s s' hs ⟨a, hfree, hstep⟩ => hs.step hfree hstep
  exact huniform.finalised

/-- A response without a word of Cloudflare. -/
def plainResponse (status : ℕ) (contentRange : Option String) : Response := ⟨status, ⟨contentRange.map (·.toList), false, none, none⟩⟩

/-- Three bytes and then two more, in two attempts. Before the second one the server gets this version. -/
def resumedAt (version : ℕ) : List SingleAction :=
  [.answer (plainResponse 200 none) true, .receive 3, .fails, .replace version, .answer (plainResponse 206 (some "bytes 3-4/5")) true, .receive 2,
    .bodyEnds, .concludes .verified]

/-- A download that was resumed finalises five bytes of one version. -/
theorem single_one_version_resumed : ∃ s, Reach Initial (fun s s' => ∃ a, s.mixes a = false ∧ s.step a = some s') s ∧
    s.finalised.map (·.length) = [5] ∧ ∀ f ∈ s.finalised, f.OneVersion := by
  have hrun : Reach Initial (fun s s' => ∃ a, s.mixes a = false ∧ s.step a = some s') _ :=
    @Reach.runGuarded _ _ _ step (fun s a => s.mixes a = false) _ ⟨0, none, .idle, []⟩ _ (resumedAt 0) rfl (.init ⟨rfl, rfl, rfl⟩)
  exact ⟨_, hrun, rfl, single_one_version hrun⟩

/-- The resource is replaced between the attempts. -/
theorem single_mixes :
    ¬ ∀ s, Reach Initial (fun s s' => ∃ a, s.step a = some s') s → ∀ f ∈ s.finalised, f.OneVersion := by
  intro hclaim
  have hrun : Reach Initial (fun s s' => ∃ a, s.step a = some s') _ :=
    @Reach.runActions _ _ _ step ⟨0, none, .idle, []⟩ _ (resumedAt 1) rfl (.init ⟨rfl, rfl, rfl⟩)
  obtain ⟨version, hversion⟩ := hclaim _ hrun _ (List.mem_singleton_self _)
  have hfirst : some 0 = some version := hversion 0 (by decide)
  have hlast : some 1 = some version := hversion 4 (by decide)
  rw [← hfirst] at hlast
  cases hlast

end Single

end Http

end Risuko
