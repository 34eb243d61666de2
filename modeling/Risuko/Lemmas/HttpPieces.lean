import Risuko.Http.Pieces
import Risuko.Lemmas.ProofTable

/-!
# Pieces and the workers that hold them

A piece is in flight exactly while one worker holds it, and what that worker writes goes on where the piece has come to. A free piece is always in
front of some worker that has still to look at it (`Worker.WillLook`), so the last worker to exit without an error has seen every piece done.
-/

namespace Risuko

namespace Http

variable {i : ℕ} {p : Piece}

/-! ## Pieces -/

/-- Where the pieces lie. -/
structure Laid (contentLength pieceSize : ℕ) (q : PieceQueue) : Prop where
  size : q.pieceSize = pieceSize
  length : q.pieces.length = divCeil contentLength pieceSize
  piece : ∀ i p, q.pieces[i]? = some p → p.offset = i * pieceSize ∧ p.length = min pieceSize (contentLength - i * pieceSize)

variable {contentLength pieceSize : ℕ} {q : PieceQueue}

theorem getElem?_modify_some {pieces : List Piece} {j : ℕ} {f : Piece → Piece} (h : (pieces.modify i f)[j]? = some p) :
    ∃ old, pieces[j]? = some old ∧ p = if i = j then f old else old := by
  rw [List.getElem?_modify] at h
  obtain ⟨old, hold, rfl⟩ := Option.map_eq_some_iff.mp h
  exact ⟨old, hold, rfl⟩

theorem Laid.modify (h : Laid contentLength pieceSize q) {f : Piece → Piece} (hf : ∀ p, (f p).offset = p.offset ∧ (f p).length = p.length) :
    Laid contentLength pieceSize { q with pieces := q.pieces.modify i f } where
  size := h.size
  length := by
    rw [List.length_modify]
    exact h.length
  piece := by
    intro j p hp
    obtain ⟨old, hold, rfl⟩ := getElem?_modify_some hp
    split
    · rw [(hf old).1, (hf old).2]
      exact h.piece j old hold
    · exact h.piece j old hold

theorem Laid.resumePiece (h : Laid contentLength pieceSize q) (pp : PieceProgress) : Laid contentLength pieceSize (q.resumePiece pp) :=
  h.modify fun _ => ⟨rfl, rfl⟩

theorem Laid.resume (h : Laid contentLength pieceSize q) (pieces : List PieceProgress) : Laid contentLength pieceSize (q.resume pieces) := by
  unfold PieceQueue.resume
  induction pieces generalizing q with
  | nil => exact h
  | cons pp rest ih => exact ih (h.resumePiece pp)

theorem laid_withPieceSize (hsize : pieceSize ≤ maxPieceSize) : Laid contentLength pieceSize (.withPieceSize contentLength pieceSize) where
  size := rfl
  length := by
    simp [PieceQueue.withPieceSize]
  piece := by
    intro i p hp
    unfold PieceQueue.withPieceSize at hp
    rw [List.getElem?_map] at hp
    obtain ⟨j, hj, rfl⟩ := Option.map_eq_some_iff.mp hp
    obtain ⟨hlt, rfl⟩ := List.getElem?_eq_some_iff.mp hj
    rw [List.getElem_range]
    refine ⟨rfl, Nat.mod_eq_of_lt ?_⟩
    calc min pieceSize (contentLength - i * pieceSize) ≤ maxPieceSize := (min_le_left _ _).trans hsize
      _ < 2 ^ 32 := by decide

/-- A byte of the file is in the piece that its offset tells, and in no other. -/
theorem Laid.mem_piece (h : Laid contentLength pieceSize q) (hpos : 0 < pieceSize) {x : ℕ} (hx : x < contentLength)
    (hp : q.pieces[i]? = some p) : (p.offset ≤ x ∧ x < p.offset + p.length) ↔ i = x / pieceSize := by
  obtain ⟨hoffset, hlength⟩ := h.piece i p hp
  rw [hoffset, hlength, eq_comm, Nat.div_eq_iff hpos]
  have hmul : (i + 1) * pieceSize = i * pieceSize + pieceSize := Nat.succ_mul i pieceSize
  omega

theorem Laid.exists_piece (h : Laid contentLength pieceSize q) (hpos : 0 < pieceSize) {x : ℕ} (hx : x < contentLength) :
    ∃ p, q.pieces[x / pieceSize]? = some p := by
  have hlt : x / pieceSize < q.pieces.length := by
    rw [h.length, lt_divCeil_iff hpos]
    exact (Nat.div_mul_le_self x pieceSize).trans_lt hx
  exact ⟨_, List.getElem?_eq_getElem hlt⟩

/-- No piece is empty, and none ends behind the file. -/
theorem Laid.bounds (h : Laid contentLength pieceSize q) (hpos : 0 < pieceSize) (hp : q.pieces[i]? = some p) :
    0 < p.length ∧ p.offset + p.length ≤ contentLength := by
  obtain ⟨hoffset, hlength⟩ := h.piece i p hp
  have hlt : i * pieceSize < contentLength := by
    rw [← lt_divCeil_iff hpos, ← h.length]
    exact (List.getElem?_eq_some_iff.mp hp).1
  rw [hoffset, hlength]
  omega

/-- A piece that nobody holds: it has no more than its length, and is done only with all of it. -/
structure Piece.Rests (p : Piece) : Prop where
  le : p.completed ≤ p.length
  done : p.state = .done → p.completed = p.length
  state : p.state ≠ .inflight

/-- The pieces of the sidecar, no two of one index. -/
theorem rests_resume {pieces : List PieceProgress} (hnodup : (pieces.map (·.i)).Nodup) (hrests : ∀ p ∈ q.pieces, p.Rests)
    (hfree : ∀ i ∈ pieces.map (·.i), ∀ p, q.pieces[i]? = some p → p.state = .free) : ∀ p ∈ (q.resume pieces).pieces, p.Rests := by
  unfold PieceQueue.resume
  induction pieces generalizing q with
  | nil => exact hrests
  | cons pp rest ih =>
    rw [List.map_cons, List.nodup_cons] at hnodup
    refine ih hnodup.2 (fun p hp => ?_) (fun i hi p hp => ?_)
    · obtain ⟨j, hj⟩ := List.mem_iff_getElem?.mp hp
      obtain ⟨old, hold, rfl⟩ := getElem?_modify_some hj
      have hrest := hrests old (List.mem_of_getElem? hold)
      split
      · rename_i hij
        subst hij
        have hstate := hfree pp.i List.mem_cons_self old hold
        refine ⟨min_le_right _ _, fun hdone => ?_, ?_⟩
        · dsimp only at hdone ⊢
          split at hdone
          · assumption
          · rw [hstate] at hdone
            cases hdone
        · dsimp only
          split
          · nofun
          · rw [hstate]
            nofun
      · exact hrest
    · obtain ⟨old, hold, rfl⟩ := getElem?_modify_some hp
      have hne : pp.i ≠ i := by
        rintro rfl
        exact hnodup.1 hi
      rw [if_neg hne]
      exact hfree i (List.mem_cons_of_mem _ hi) old hold

theorem rests_withPieceSize : ∀ p ∈ (PieceQueue.withPieceSize contentLength pieceSize).pieces, p.Rests ∧ p.state = .free ∧ p.completed = 0 := by
  intro p hp
  obtain ⟨i, -, rfl⟩ := List.mem_map.mp hp
  exact ⟨⟨Nat.zero_le _, nofun, nofun⟩, rfl, rfl⟩

theorem choosePieceSize_mem (contentLength split : ℕ) :
    minPieceSize ≤ choosePieceSize contentLength split ∧ choosePieceSize contentLength split ≤ maxPieceSize := by
  have hle : minPieceSize ≤ maxPieceSize := by decide
  exact ⟨le_max_left _ _, max_le hle (min_le_right _ _)⟩

/-- The queue that a run starts with. -/
theorem open_spec {split : ℕ} {resumed : Option (ℕ × List PieceProgress)} (hq : q = Run.openQueue contentLength split resumed)
    (hresumed : ∀ pieceSize pieces, resumed = some (pieceSize, pieces) →
      minPieceSize ≤ pieceSize ∧ pieceSize ≤ maxPieceSize ∧ (pieces.map (·.i)).Nodup) :
    ∃ pieceSize, minPieceSize ≤ pieceSize ∧ pieceSize ≤ maxPieceSize ∧ Laid contentLength pieceSize q ∧ ∀ p ∈ q.pieces, p.Rests := by
  subst hq
  cases resumed with
  | none =>
    obtain ⟨hmin, hmax⟩ := choosePieceSize_mem contentLength split
    exact ⟨_, hmin, hmax, laid_withPieceSize hmax, fun p hp => (rests_withPieceSize p hp).1⟩
  | some found =>
    obtain ⟨pieceSize, pieces⟩ := found
    obtain ⟨hmin, hmax, hnodup⟩ := hresumed pieceSize pieces rfl
    exact ⟨pieceSize, hmin, hmax, (laid_withPieceSize hmax).resume pieces,
      rests_resume hnodup (fun p hp => (rests_withPieceSize p hp).1) fun i _ p hp => (rests_withPieceSize p (List.mem_of_getElem? hp)).2.1⟩

/-! ## Workers -/

/-- What a worker knows of the piece it holds. -/
def Worker.Fits (p : Piece) : Worker → Prop
  | requesting _ already => already = p.completed ∧ p.completed < p.length
  | streaming _ _ _ writer | finishing _ _ _ writer => writer.offset = p.offset + p.completed ∧ writer.remaining = p.length - p.completed
  | _ => True

/-- Whether a worker has still to look at the piece `i`, or makes the whole download fail. -/
def Worker.WillLook (n i : ℕ) : Worker → Prop
  | scanning start di => ∃ k, di ≤ k ∧ k < n ∧ (start + k) % n = i
  | looking _ => False
  | exited error => error.isSome = true
  | _ => True

/-- Whether a worker has a response. -/
def Worker.streams : Worker → Bool
  | streaming .. | finishing .. => true
  | _ => false

/-- A scan comes to every piece. -/
theorem exists_turn_of_scan {n start : ℕ} (hi : i < n) (hstart : start < n) : ∃ k, 0 ≤ k ∧ k < n ∧ (start + k) % n = i := by
  by_cases hle : start ≤ i
  · exact ⟨i - start, Nat.zero_le _, by omega, by rw [Nat.add_sub_cancel' hle, Nat.mod_eq_of_lt hi]⟩
  · refine ⟨n - start + i, Nat.zero_le _, by omega, ?_⟩
    rw [show start + (n - start + i) = i + n by omega, Nat.add_mod_right, Nat.mod_eq_of_lt hi]

namespace Run

variable {s s' : Run} {v : ℕ} {w w' : Worker}
variable {idx : ℕ} {p : Piece} {a : WorkerStep}

structure Ok (contentLength pieceSize : ℕ) (s : Run) : Prop where
  laid : Laid contentLength pieceSize s.queue
  le : ∀ (i : ℕ) (p : Piece), s.queue.pieces[i]? = some p → p.completed ≤ p.length
  done : ∀ (i : ℕ) (p : Piece), s.queue.pieces[i]? = some p → p.state = .done → p.completed = p.length
  written : ∀ (i : ℕ) (p : Piece), s.queue.pieces[i]? = some p → ∀ x, p.offset ≤ x → x < p.offset + p.completed → s.written x = true
  held : ∀ (v : ℕ) (w : Worker) (i : ℕ), s.workers[v]? = some w → w.holds = some i → ∃ p : Piece, s.queue.pieces[i]? = some p ∧
      p.state = .inflight ∧ w.Fits p
  holder : ∀ (i : ℕ) (p : Piece), s.queue.pieces[i]? = some p → p.state = .inflight → ∃ (v : ℕ) (w : Worker), s.workers[v]? = some w ∧ w.holds = some i
  one : ∀ (v v' : ℕ) (w w' : Worker) (i : ℕ), s.workers[v]? = some w → s.workers[v']? = some w' → w.holds = some i → w'.holds = some i → v = v'
  free : ∀ (i : ℕ) (p : Piece), s.queue.pieces[i]? = some p → p.state = .free → ∃ (v : ℕ) (w : Worker), s.workers[v]? = some w ∧
      w.WillLook s.queue.pieces.length i

theorem Initial.ok (h : Initial contentLength s) :
    ∃ pieceSize, minPieceSize ≤ pieceSize ∧ pieceSize ≤ maxPieceSize ∧ Ok contentLength pieceSize s := by
  obtain ⟨split, resumed, hq, hresumed⟩ := h.queue
  obtain ⟨pieceSize, hmin, hmax, hlaid, hrests⟩ := open_spec hq hresumed
  obtain ⟨n, hworkers⟩ := h.workers
  have hidle : ∀ (v : ℕ) (w : Worker), s.workers[v]? = some w → w = .idle := by
    intro v w hw
    rw [hworkers] at hw
    exact List.eq_of_mem_replicate (List.mem_of_getElem? hw)
  refine ⟨pieceSize, hmin, hmax, hlaid, ?_, ?_, ?_, ?_, ?_, ?_, ?_⟩
  · exact fun i p hp => (hrests p (List.mem_of_getElem? hp)).le
  · exact fun i p hp => (hrests p (List.mem_of_getElem? hp)).done
  · exact fun i p hp => h.written p (List.mem_of_getElem? hp)
  · intro v w i hw hholds
    rw [hidle v w hw] at hholds
    cases hholds
  · exact fun i p hp hstate => absurd hstate (hrests p (List.mem_of_getElem? hp)).state
  · intro v v' w w' i hw _ hholds
    rw [hidle v w hw] at hholds
    cases hholds
  · refine fun i p hp hstate => ⟨0, .idle, ?_, trivial⟩
    rw [hworkers]
    rfl

/-! ## Steps -/

/-- The workers after one of them has gone on. -/
theorem worker_set {workers : List Worker} {u : ℕ} {x : Worker} (h : (workers.set v w')[u]? = some x) :
    u = v ∧ x = w' ∨ u ≠ v ∧ workers[u]? = some x := by
  by_cases huv : v = u
  · subst huv
    rw [List.getElem?_set_self'] at h
    obtain ⟨_, _, rfl⟩ := Option.map_eq_some_iff.mp h
    exact Or.inl ⟨rfl, rfl⟩
  · rw [List.getElem?_set_ne huv] at h
    exact Or.inr ⟨fun huv' => huv huv'.symm, h⟩

theorem set_worker {workers : List Worker} (hw : workers[v]? = some w) : (workers.set v w')[v]? = some w' :=
  List.getElem?_set_self (List.getElem?_eq_some_iff.mp hw).1

/-- A worker that goes on and leaves the pieces as they are. -/
theorem Ok.move (h : Ok contentLength pieceSize s) (hw : s.workers[v]? = some w) (hqueue : s'.queue = s.queue)
    (hworkers : s'.workers = s.workers.set v w') (hwritten : ∀ x, s.written x = true → s'.written x = true) (hholds : w'.holds = w.holds)
    (hfits : ∀ (i : ℕ) (p : Piece), w.holds = some i → s.queue.pieces[i]? = some p → w.Fits p → w'.Fits p)
    (hlook : ∀ (i : ℕ) (p : Piece), s.queue.pieces[i]? = some p → p.state = .free → w.WillLook s.queue.pieces.length i →
      w'.WillLook s.queue.pieces.length i) : Ok contentLength pieceSize s' := by
  have hback : ∀ (u : ℕ) (x : Worker), s'.workers[u]? = some x → ∃ old, s.workers[u]? = some old ∧ x.holds = old.holds ∧
      (x = old ∨ old = w ∧ x = w') := by
    intro u x hx
    rw [hworkers] at hx
    rcases worker_set hx with ⟨rfl, rfl⟩ | ⟨-, hx⟩
    · exact ⟨w, hw, hholds, Or.inr ⟨rfl, rfl⟩⟩
    · exact ⟨x, hx, rfl, Or.inl rfl⟩
  have hforth : ∀ (u : ℕ) (x : Worker), s.workers[u]? = some x → ∃ new, s'.workers[u]? = some new ∧ new.holds = x.holds ∧
      (new = x ∨ x = w ∧ new = w') := by
    intro u x hx
    rw [hworkers]
    by_cases huv : u = v
    · subst huv
      rw [hw] at hx
      cases hx
      exact ⟨w', set_worker hw, hholds, Or.inr ⟨rfl, rfl⟩⟩
    · exact ⟨x, by rw [List.getElem?_set_ne (fun huv' => huv huv'.symm), hx], rfl, Or.inl rfl⟩
  refine ⟨by rw [hqueue]; exact h.laid, by rw [hqueue]; exact h.le, by rw [hqueue]; exact h.done, ?_, ?_, ?_, ?_, ?_⟩
  · intro i p hp x hlo hhi
    rw [hqueue] at hp
    exact hwritten x (h.written i p hp x hlo hhi)
  · intro u x i hx hi
    obtain ⟨old, hold, hsame, hcase⟩ := hback u x hx
    rw [hsame] at hi
    obtain ⟨p, hp, hstate, hfit⟩ := h.held u old i hold hi
    rw [hqueue]
    refine ⟨p, hp, hstate, ?_⟩
    rcases hcase with rfl | ⟨rfl, rfl⟩
    · exact hfit
    · exact hfits i p hi hp hfit
  · intro i p hp hstate
    rw [hqueue] at hp
    obtain ⟨u, x, hx, hi⟩ := h.holder i p hp hstate
    obtain ⟨new, hnew, hsame, -⟩ := hforth u x hx
    exact ⟨u, new, hnew, hsame.trans hi⟩
  · intro u u' x x' i hx hx' hi hi'
    obtain ⟨old, hold, hsame, -⟩ := hback u x hx
    obtain ⟨old', hold', hsame', -⟩ := hback u' x' hx'
    exact h.one u u' old old' i hold hold' (hsame.symm.trans hi) (hsame'.symm.trans hi')
  · intro i p hp hstate
    rw [hqueue] at hp ⊢
    obtain ⟨u, x, hx, hsees⟩ := h.free i p hp hstate
    obtain ⟨new, hnew, -, hcase⟩ := hforth u x hx
    refine ⟨u, new, hnew, ?_⟩
    rcases hcase with rfl | ⟨rfl, rfl⟩
    · exact hsees
    · exact hlook i p hp hstate hsees

/-- A worker that claims a piece, gives back the one it holds, or goes on with it. -/
theorem Ok.change (h : Ok contentLength pieceSize s) (hw : s.workers[v]? = some w) (hp : s.queue.pieces[idx]? = some p)
    {f : Piece → Piece} (hf : ∀ p, (f p).offset = p.offset ∧ (f p).length = p.length)
    (hqueue : s'.queue = { s.queue with pieces := s.queue.pieces.modify idx f }) (hworkers : s'.workers = s.workers.set v w')
    (hwritten : ∀ x, s.written x = true → s'.written x = true) (hmine : w.holds = some idx ∨ w.holds = none ∧ p.state ≠ .inflight)
    (hholds : w'.holds = some idx ∧ (f p).state = .inflight ∧ w'.Fits (f p) ∨ w'.holds = none ∧ (f p).state ≠ .inflight)
    (hle : (f p).completed ≤ p.length) (hdone : (f p).state = .done → (f p).completed = p.length)
    (hinit : ∀ x, p.offset ≤ x → x < p.offset + (f p).completed → s'.written x = true)
    (hlook : ∀ i, w'.WillLook s.queue.pieces.length i) : Ok contentLength pieceSize s' := by
  -- Nobody else holds the piece.
  have hother : ∀ (u : ℕ) (x : Worker), u ≠ v → s.workers[u]? = some x → x.holds ≠ some idx := by
    intro u x huv hx hi
    rcases hmine with hmine | ⟨-, hstate⟩
    · exact huv (h.one u v x w idx hx hw hi hmine)
    · obtain ⟨q, hq, hinflight, -⟩ := h.held u x idx hx hi
      rw [hp] at hq
      cases hq
      exact hstate hinflight
  have hmineonly : ∀ i, w.holds = some i → i = idx := by
    intro i hi
    rcases hmine with hmine | ⟨hnone, -⟩
    · exact Option.some.inj (hi.symm.trans hmine)
    · rw [hnone] at hi
      cases hi
  have hget : ∀ (i : ℕ) (q : Piece), s'.queue.pieces[i]? = some q → i = idx ∧ q = f p ∨ i ≠ idx ∧ s.queue.pieces[i]? = some q := by
    intro i q hq
    rw [hqueue] at hq
    obtain ⟨old, hold, rfl⟩ := getElem?_modify_some hq
    by_cases hi : idx = i
    · subst hi
      rw [hp] at hold
      cases hold
      exact Or.inl ⟨rfl, if_pos rfl⟩
    · rw [if_neg hi]
      exact Or.inr ⟨fun hi' => hi hi'.symm, hold⟩
  have hnew : s'.queue.pieces[idx]? = some (f p) := by
    rw [hqueue]
    simp [hp]
  have hkept : ∀ (i : ℕ) (q : Piece), i ≠ idx → s.queue.pieces[i]? = some q → s'.queue.pieces[i]? = some q := by
    intro i q hi hq
    rw [hqueue]
    simp only [List.getElem?_modify, hq, if_neg (fun hi' => hi hi'.symm : ¬ idx = i)]
    rfl
  have hlength : s'.queue.pieces.length = s.queue.pieces.length := by
    rw [hqueue]
    exact List.length_modify ..
  refine ⟨by rw [hqueue]; exact h.laid.modify hf, ?_, ?_, ?_, ?_, ?_, ?_, ?_⟩
  · intro i q hq
    rcases hget i q hq with ⟨rfl, rfl⟩ | ⟨-, hq⟩
    · rw [(hf p).2]
      exact hle
    · exact h.le i q hq
  · intro i q hq hstate
    rcases hget i q hq with ⟨rfl, rfl⟩ | ⟨-, hq⟩
    · rw [(hf p).2]
      exact hdone hstate
    · exact h.done i q hq hstate
  · intro i q hq x hlo hhi
    rcases hget i q hq with ⟨rfl, rfl⟩ | ⟨-, hq⟩
    · rw [(hf p).1] at hlo hhi
      exact hinit x hlo hhi
    · exact hwritten x (h.written i q hq x hlo hhi)
  · intro u x i hx hi
    rw [hworkers] at hx
    rcases worker_set hx with ⟨rfl, rfl⟩ | ⟨huv, hx⟩
    · rcases hholds with ⟨hheld, hstate, hfit⟩ | ⟨hnone, -⟩
      · rw [hheld] at hi
        cases hi
        exact ⟨f p, hnew, hstate, hfit⟩
      · rw [hnone] at hi
        cases hi
    · obtain ⟨q, hq, hstate, hfit⟩ := h.held u x i hx hi
      refine ⟨q, hkept i q ?_ hq, hstate, hfit⟩
      rintro rfl
      exact hother u x huv hx hi
  · intro i q hq hstate
    rw [hworkers]
    rcases hget i q hq with ⟨rfl, rfl⟩ | ⟨hi, hq⟩
    · rcases hholds with ⟨hheld, -, -⟩ | ⟨-, hnot⟩
      · exact ⟨v, w', set_worker hw, hheld⟩
      · exact absurd hstate hnot
    · obtain ⟨u, x, hx, hholding⟩ := h.holder i q hq hstate
      refine ⟨u, x, ?_, hholding⟩
      rw [List.getElem?_set_ne, hx]
      rintro rfl
      rw [hw] at hx
      cases hx
      exact hi (hmineonly i hholding)
  · intro u u' x x' i hx hx' hi hi'
    rw [hworkers] at hx hx'
    have hheld : ∀ i, w'.holds = some i → i = idx := by
      intro i hi
      rcases hholds with ⟨hheld, -, -⟩ | ⟨hnone, -⟩
      · exact Option.some.inj (hi.symm.trans hheld)
      · rw [hnone] at hi
        cases hi
    rcases worker_set hx with ⟨rfl, rfl⟩ | ⟨huv, hold⟩
    · rcases worker_set hx' with ⟨rfl, -⟩ | ⟨huv', hold'⟩
      · rfl
      · rw [hheld i hi] at hi'
        exact absurd hi' (hother u' x' huv' hold')
    · rcases worker_set hx' with ⟨rfl, rfl⟩ | ⟨-, hold'⟩
      · rw [hheld i hi'] at hi
        exact absurd hi (hother u x huv hold)
      · exact h.one u u' x x' i hold hold' hi hi'
  · intro i q hq hstate
    rw [hworkers, hlength]
    exact ⟨v, w', set_worker hw, hlook i⟩

/-- A worker that releases or completes its piece. -/
theorem Ok.drop (h : Ok contentLength pieceSize s) (hw : s.workers[v]? = some w) (hp : s.queue.pieces[idx]? = some p)
    (hi : w.holds = some idx) {state : PieceState} (hstate : state ≠ .inflight) (hdone : state = .done → p.length ≤ p.completed)
    (hnone : w'.holds = none) (hlook : ∀ n i, w'.WillLook n i) :
    Ok contentLength pieceSize ({ s with queue := s.queue.setState idx state }.setWorker v w') := by
  refine h.change hw hp (f := fun p => { p with state := state }) (fun _ => ⟨rfl, rfl⟩) rfl rfl (fun _ => id) (Or.inl hi)
    (Or.inr ⟨hnone, hstate⟩) (h.le idx p hp) (fun heq => le_antisymm (h.le idx p hp) (hdone heq)) (h.written idx p hp) (hlook _)

/-- A worker that releases its piece. -/
theorem Ok.release (h : Ok contentLength pieceSize s) (hw : s.workers[v]? = some w) (hi : w.holds = some idx)
    (hnone : w'.holds = none) (hlook : ∀ n i, w'.WillLook n i) :
    Ok contentLength pieceSize ({ s with queue := s.queue.setState idx .free }.setWorker v w') := by
  obtain ⟨p, hp, -, -⟩ := h.held v w idx hw hi
  exact h.drop hw hp hi nofun nofun hnone hlook

/-- A worker that only goes on. -/
theorem Ok.goesOn (h : Ok contentLength pieceSize s) (hw : s.workers[v]? = some w) (hholds : w'.holds = w.holds)
    (hfits : ∀ (i : ℕ) (p : Piece), w.holds = some i → s.queue.pieces[i]? = some p → w.Fits p → w'.Fits p)
    (hlook : ∀ (i : ℕ) (p : Piece), s.queue.pieces[i]? = some p → p.state = .free → w.WillLook s.queue.pieces.length i →
      w'.WillLook s.queue.pieces.length i) : Ok contentLength pieceSize (s.setWorker v w') :=
  h.move hw rfl rfl (fun _ => id) hholds hfits hlook

theorem written_put {offset n x : ℕ} : (s.put offset n).written x = true ↔ offset ≤ x ∧ x < offset + n ∨ s.written x = true := by
  simp [written, put]

/-- The writer of a piece puts the next chunk behind what the piece has come to. -/
theorem Ok.writeChunk (h : Ok contentLength pieceSize s) (hw : s.workers[v]? = some w) (hi : w.holds = some idx)
    {writer : ChunkWriter} (hwriter : ∀ p : Piece, w.Fits p → writer.offset = p.offset + p.completed ∧ writer.remaining = p.length - p.completed)
    {n : ℕ} {pending : List ℕ} (hholds : w'.holds = some idx)
    (hfits : ∀ p : Piece, writer.offset + min n writer.remaining = p.offset + p.completed →
      writer.remaining - min n writer.remaining = p.length - p.completed → w'.Fits p)
    (hlook : ∀ n i, w'.WillLook n i) : Ok contentLength pieceSize ((s.writeChunk idx n writer pending).1.setWorker v w') := by
  obtain ⟨p, hp, hstate, hfit⟩ := h.held v w idx hw hi
  obtain ⟨hoffset, hremaining⟩ := hwriter p hfit
  have hle := h.le idx p hp
  refine h.change hw hp (f := fun p => { p with completed := p.completed + min n writer.remaining }) (fun _ => ⟨rfl, rfl⟩) rfl rfl ?_
    (Or.inl hi) (Or.inl ⟨hholds, hstate, hfits _ ?_ ?_⟩) ?_ ?_ ?_ (hlook _)
  · exact fun x hx => written_put.mpr (Or.inr hx)
  · dsimp only
    omega
  · dsimp only
    omega
  · dsimp only
    omega
  · intro hdone
    rw [hstate] at hdone
    cases hdone
  · intro x hlo hhi
    dsimp only at hhi
    refine written_put.mpr ?_
    by_cases hx : x < p.offset + p.completed
    · exact Or.inr (h.written idx p hp x hlo hx)
    · exact Or.inl ⟨by omega, by omega⟩

/-- A writer that fails leaves some bytes of its chunk in the file. -/
theorem Ok.writeFails (h : Ok contentLength pieceSize s) (hw : s.workers[v]? = some w) {offset k : ℕ} (hholds : w'.holds = w.holds)
    (hfits : ∀ p : Piece, w.Fits p → w'.Fits p) (hlook : ∀ n i, w'.WillLook n i) : Ok contentLength pieceSize ((s.put offset k).setWorker v w') :=
  h.move hw rfl rfl (fun _ hx => written_put.mpr (Or.inr hx)) hholds (fun _ p _ _ => hfits p) fun i _ _ _ _ => hlook _ i

/-- What a worker does when the request has come to an end. -/
theorem Ok.settle (h : Ok contentLength pieceSize s) {already : ℕ} {outcome : Outcome}
    (hw : s.workers[v]? = some (.settling idx already outcome)) (hp : s.queue.pieces[idx]? = some p) {stop : Option Text} :
    Ok contentLength pieceSize (s.settle v idx already p stop outcome) := by
  cases outcome with
  | ok u =>
    simp only [Run.settle]
    split
    · rename_i hfull
      exact h.drop hw hp rfl nofun (fun _ => hfull) rfl fun _ _ => trivial
    · split
      · exact h.release hw rfl rfl fun _ _ => trivial
      · cases stop with
        | none => exact h.release hw rfl rfl fun _ _ => trivial
        | some error => exact h.release hw rfl rfl fun _ _ => rfl
  | error failure =>
    cases failure with
    | cancelled | storage error => exact h.release hw rfl rfl fun _ _ => rfl
    | changed error => exact h.release hw rfl rfl fun _ _ => trivial
    | source error =>
      cases stop with
      | none => exact h.release hw rfl rfl fun _ _ => trivial
      | some error => exact h.release hw rfl rfl fun _ _ => rfl

theorem Ok.workerStep (h : Ok contentLength pieceSize s) (hw : s.workers[v]? = some w) (hs : s.workerStep v w a = some s') :
    Ok contentLength pieceSize s' := by
  cases w with
  | idle =>
    cases a with
    | start hint =>
      cases hs
      split
      · exact h.goesOn hw rfl nofun fun _ _ _ _ _ => rfl
      · refine h.goesOn hw rfl nofun fun i p hp _ _ => ?_
        have hi := (List.getElem?_eq_some_iff.mp hp).1
        exact exists_turn_of_scan hi (Nat.mod_lt hint (Nat.zero_lt_of_lt hi))
    | _ => cases hs
  | scanning start di =>
    cases a with
    | tryClaim =>
      simp only [Run.workerStep] at hs
      split at hs
      · rename_i hend
        cases hs
        refine h.goesOn hw rfl nofun fun i p _ _ hlook => ?_
        obtain ⟨k, hk, hlt, -⟩ := hlook
        omega
      · split at hs
        · rename_i p hp
          split at hs
          · rename_i hfree
            cases hs
            exact h.change hw hp (f := fun p => { p with state := .inflight }) (fun _ => ⟨rfl, rfl⟩) rfl rfl (fun _ => id)
              (Or.inr ⟨rfl, by rw [hfree]; nofun⟩) (Or.inl ⟨rfl, rfl, trivial⟩) (h.le _ p hp) nofun (h.written _ p hp) fun _ => trivial
          · -- The piece that the scan passes over is not free.
            rename_i hfree
            cases hs
            refine h.goesOn hw rfl nofun fun i q hq hstate hlook => ?_
            obtain ⟨k, hk, hlt, hturn⟩ := hlook
            refine ⟨k, Nat.lt_of_le_of_ne hk ?_, hlt, hturn⟩
            rintro rfl
            rw [hturn, hq] at hp
            cases hp
            exact hfree hstate
        · cases hs
    | _ => cases hs
  | looking i =>
    cases a with
    | look =>
      simp only [Run.workerStep] at hs
      split at hs
      · cases hs
        split
        · exact h.goesOn hw rfl nofun fun _ _ _ _ _ => trivial
        · exact h.goesOn hw rfl nofun fun _ _ _ _ hlook => hlook.elim
      · cases hs
        exact h.goesOn hw rfl nofun fun _ _ _ _ hlook => hlook.elim
    | _ => cases hs
  | waiting =>
    cases a with
    | wake =>
      cases hs
      exact h.goesOn hw rfl nofun fun _ _ _ _ _ => trivial
    | _ => cases hs
  | claimed idx =>
    cases a with
    | readCompleted =>
      simp only [Run.workerStep] at hs
      split at hs
      · rename_i p hp
        split at hs
        · rename_i hfull
          cases hs
          exact h.drop hw hp rfl nofun (fun _ => hfull) rfl fun _ _ => trivial
        · rename_i hshort
          cases hs
          refine h.goesOn hw rfl (fun i q hi hq _ => ?_) fun _ _ _ _ _ => trivial
          cases hi
          rw [hp] at hq
          cases hq
          exact ⟨rfl, not_le.mp hshort⟩
      · cases hs
    | _ => cases hs
  | requesting idx already =>
    cases a with
    | giveBack error =>
      cases hs
      exact h.release hw rfl rfl fun _ _ => rfl
    | refused failure =>
      cases hs
      exact h.goesOn hw rfl (fun _ _ _ _ _ => trivial) fun _ _ _ _ _ => trivial
    | opened =>
      simp only [Run.workerStep] at hs
      split at hs
      · rename_i p hp
        cases hs
        refine h.goesOn hw rfl (fun i q hi hq hfit => ?_) fun _ _ _ _ _ => trivial
        cases hi
        rw [hp] at hq
        cases hq
        obtain ⟨hsame, hlt⟩ := hfit
        refine ⟨by rw [hsame], ?_⟩
        dsimp only
        omega
      · cases hs
    | _ => cases hs
  | streaming idx already room writer =>
    cases a with
    | receive length =>
      simp only [Run.workerStep] at hs
      split at hs
      · cases hs
        exact h.goesOn hw rfl (fun _ _ _ _ _ => trivial) fun _ _ _ _ _ => trivial
      · cases hs
        split
        · exact h.goesOn hw rfl (fun _ _ _ _ hfit => hfit) fun _ _ _ _ _ => trivial
        · exact h.goesOn hw rfl (fun _ _ _ _ hfit => hfit) fun _ _ _ _ _ => trivial
    | streamEnds outcome =>
      cases hs
      exact h.goesOn hw rfl (fun _ _ _ _ hfit => hfit) fun _ _ _ _ _ => trivial
    | write =>
      simp only [Run.workerStep] at hs
      split at hs
      · cases hs
        exact h.writeChunk hw rfl (fun _ hfit => hfit) rfl (fun _ hoffset hremaining => ⟨hoffset, hremaining⟩) fun _ _ => trivial
      · cases hs
    | writeFails written error =>
      simp only [Run.workerStep] at hs
      split at hs
      · cases hs
        exact h.writeFails hw rfl (fun _ hfit => hfit) fun _ _ => trivial
      · cases hs
    | _ => cases hs
  | finishing idx already outcome writer =>
    cases a with
    | write =>
      simp only [Run.workerStep] at hs
      split at hs
      · cases hs
        exact h.writeChunk hw rfl (fun _ hfit => hfit) rfl (fun _ hoffset hremaining => ⟨hoffset, hremaining⟩) fun _ _ => trivial
      · cases hs
    | writeFails written error =>
      simp only [Run.workerStep] at hs
      split at hs
      · cases hs
        exact h.writeFails hw rfl (fun _ hfit => hfit) fun _ _ => trivial
      · cases hs
    | finished =>
      simp only [Run.workerStep, Option.ite_none_right_eq_some] at hs
      obtain ⟨-, hs⟩ := hs
      cases hs
      exact h.goesOn hw rfl (fun _ _ _ _ _ => trivial) fun _ _ _ _ _ => trivial
    | _ => cases hs
  | settling idx already outcome =>
    cases a with
    | settle stop =>
      simp only [Run.workerStep] at hs
      split at hs
      · rename_i p hp
        cases hs
        exact h.settle hw hp
      · cases hs
    | _ => cases hs
  | changing error =>
    cases a with
    | tell =>
      cases hs
      exact h.move hw rfl rfl (fun _ => id) rfl nofun fun _ _ _ _ _ => trivial
    | _ => cases hs
  | cancelling error =>
    cases a with
    | tell =>
      cases hs
      exact h.move hw rfl rfl (fun _ => id) rfl nofun fun _ _ _ _ _ => rfl
    | _ => cases hs
  | exited error => cases a <;> cases hs

/-- Every step keeps the run in order. -/
theorem Ok.step (h : Ok contentLength pieceSize s) {a : Action} (hs : s.step a = some s') : Ok contentLength pieceSize s' := by
  cases a with
  | worker v a =>
    obtain ⟨w, hw, hs⟩ := Option.bind_eq_some_iff.mp hs
    exact h.workerStep hw hs
  | cancel =>
    cases hs
    exact { h with }
  | stall =>
    cases hs
    exact { h with }

/-- So it is in order after every run. -/
theorem Reachable.ok (h : s.Reachable contentLength) : ∃ pieceSize, 0 < pieceSize ∧ Ok contentLength pieceSize s := by
  induction h with
  | init hs =>
    obtain ⟨pieceSize, hmin, -, hok⟩ := hs.ok
    exact ⟨pieceSize, Nat.lt_of_lt_of_le (by decide) hmin, hok⟩
  | step _ hs ih =>
    obtain ⟨pieceSize, hpos, hok⟩ := ih
    obtain ⟨a, hs⟩ := hs
    exact ⟨pieceSize, hpos, hok.step hs⟩

/-! ## Writes and responses -/

/-- What a step of a worker leaves besides the pieces: only this worker goes on, it has a response only if it had one or has just got one, and at most
one chunk is written, where its writer has come to. -/
structure Leaves (s : Run) (v : ℕ) (w : Worker) (a : WorkerStep) (s' : Run) : Prop where
  workers : ∃ w' : Worker, s'.workers = s.workers.set v w' ∧ (w'.streams = true → a = .opened ∨ w.streams = true)
  writes : s'.writes = s.writes ∨ ∃ (i : ℕ) (writer : ChunkWriter) (n : ℕ), w.holds = some i ∧ w.streams = true ∧
    (∀ p : Piece, w.Fits p → writer.offset = p.offset + p.completed ∧ writer.remaining = p.length - p.completed) ∧
    s'.writes = (writer.offset, n) :: s.writes ∧ n ≤ writer.remaining

theorem leaves_settle {already : ℕ} {stop : Option Text} {outcome : Outcome} :
    Leaves s v w a (s.settle v idx already p stop outcome) := by
  cases outcome with
  | ok u =>
    simp only [Run.settle]
    split
    · exact ⟨⟨_, rfl, nofun⟩, Or.inl rfl⟩
    split
    · exact ⟨⟨_, rfl, nofun⟩, Or.inl rfl⟩
    · cases stop with
      | none => exact ⟨⟨_, rfl, nofun⟩, Or.inl rfl⟩
      | some error => exact ⟨⟨_, rfl, nofun⟩, Or.inl rfl⟩
  | error failure =>
    cases failure with
    | source error =>
      cases stop with
      | none => exact ⟨⟨_, rfl, nofun⟩, Or.inl rfl⟩
      | some stopped => exact ⟨⟨_, rfl, nofun⟩, Or.inl rfl⟩
    | _ => exact ⟨⟨_, rfl, nofun⟩, Or.inl rfl⟩

theorem leaves_workerStep (hs : s.workerStep v w a = some s') : Leaves s v w a s' := by
  cases w with
  | idle =>
    cases a with
    | start hint =>
      cases hs
      refine ⟨⟨_, rfl, fun hstreams => ?_⟩, Or.inl rfl⟩
      split at hstreams
      · cases hstreams
      · cases hstreams
    | _ => cases hs
  | scanning start di =>
    cases a with
    | tryClaim =>
      simp only [Run.workerStep] at hs
      split at hs
      · cases hs
        exact ⟨⟨_, rfl, nofun⟩, Or.inl rfl⟩
      · split at hs
        · split at hs
          · cases hs
            exact ⟨⟨_, rfl, nofun⟩, Or.inl rfl⟩
          · cases hs
            exact ⟨⟨_, rfl, nofun⟩, Or.inl rfl⟩
        · cases hs
    | _ => cases hs
  | looking i =>
    cases a with
    | look =>
      simp only [Run.workerStep] at hs
      split at hs
      · cases hs
        refine ⟨⟨_, rfl, fun hstreams => ?_⟩, Or.inl rfl⟩
        split at hstreams
        · cases hstreams
        · cases hstreams
      · cases hs
        exact ⟨⟨_, rfl, nofun⟩, Or.inl rfl⟩
    | _ => cases hs
  | waiting =>
    cases a with
    | wake =>
      cases hs
      exact ⟨⟨_, rfl, nofun⟩, Or.inl rfl⟩
    | _ => cases hs
  | claimed idx =>
    cases a with
    | readCompleted =>
      simp only [Run.workerStep] at hs
      split at hs
      · split at hs
        · cases hs
          exact ⟨⟨_, rfl, nofun⟩, Or.inl rfl⟩
        · cases hs
          exact ⟨⟨_, rfl, nofun⟩, Or.inl rfl⟩
      · cases hs
    | _ => cases hs
  | requesting idx already =>
    cases a with
    | giveBack error | refused failure =>
      cases hs
      exact ⟨⟨_, rfl, nofun⟩, Or.inl rfl⟩
    | opened =>
      simp only [Run.workerStep] at hs
      split at hs
      · cases hs
        exact ⟨⟨_, rfl, fun _ => Or.inl rfl⟩, Or.inl rfl⟩
      · cases hs
    | _ => cases hs
  | streaming idx already room writer =>
    cases a with
    | receive length =>
      simp only [Run.workerStep] at hs
      split at hs
      · cases hs
        exact ⟨⟨_, rfl, nofun⟩, Or.inl rfl⟩
      · cases hs
        exact ⟨⟨_, rfl, fun _ => Or.inr rfl⟩, Or.inl rfl⟩
    | streamEnds outcome =>
      cases hs
      exact ⟨⟨_, rfl, fun _ => Or.inr rfl⟩, Or.inl rfl⟩
    | write =>
      simp only [Run.workerStep] at hs
      split at hs
      · cases hs
        exact ⟨⟨_, rfl, fun _ => Or.inr rfl⟩, Or.inr ⟨_, _, _, rfl, rfl, fun _ hfit => hfit, rfl, min_le_right _ _⟩⟩
      · cases hs
    | writeFails written error =>
      simp only [Run.workerStep] at hs
      split at hs
      · cases hs
        exact ⟨⟨_, rfl, fun _ => Or.inr rfl⟩,
          Or.inr ⟨_, writer, _, rfl, rfl, fun _ hfit => hfit, rfl, (min_le_right _ _).trans (min_le_right _ _)⟩⟩
      · cases hs
    | _ => cases hs
  | finishing idx already outcome writer =>
    cases a with
    | write =>
      simp only [Run.workerStep] at hs
      split at hs
      · cases hs
        exact ⟨⟨_, rfl, fun _ => Or.inr rfl⟩, Or.inr ⟨_, _, _, rfl, rfl, fun _ hfit => hfit, rfl, min_le_right _ _⟩⟩
      · cases hs
    | writeFails written error =>
      simp only [Run.workerStep] at hs
      split at hs
      · cases hs
        exact ⟨⟨_, rfl, fun _ => Or.inr rfl⟩,
          Or.inr ⟨_, writer, _, rfl, rfl, fun _ hfit => hfit, rfl, (min_le_right _ _).trans (min_le_right _ _)⟩⟩
      · cases hs
    | finished =>
      simp only [Run.workerStep, Option.ite_none_right_eq_some] at hs
      obtain ⟨-, hs⟩ := hs
      cases hs
      exact ⟨⟨_, rfl, nofun⟩, Or.inl rfl⟩
    | _ => cases hs
  | settling idx already outcome =>
    cases a with
    | settle stop =>
      simp only [Run.workerStep] at hs
      split at hs
      · cases hs
        exact leaves_settle
      · cases hs
    | _ => cases hs
  | changing error | cancelling error =>
    cases a with
    | tell =>
      cases hs
      exact ⟨⟨_, rfl, nofun⟩, Or.inl rfl⟩
    | _ => cases hs
  | exited error => cases a <;> cases hs

/-- A worker that has a response had one before, or has just got it. -/
theorem streams_step {a : Action} (hs : s.step a = some s') {u : ℕ} {x : Worker} (hx : s'.workers[u]? = some x) (hstreams : x.streams = true) :
    a = .worker u .opened ∨ ∃ old : Worker, s.workers[u]? = some old ∧ old.streams = true := by
  cases a with
  | worker v b =>
    obtain ⟨w, hw, hs⟩ := Option.bind_eq_some_iff.mp hs
    obtain ⟨w', hworkers, hgot⟩ := (leaves_workerStep hs).workers
    rw [hworkers] at hx
    rcases worker_set hx with ⟨rfl, rfl⟩ | ⟨-, hx⟩
    · rcases hgot hstreams with rfl | hold
      · exact Or.inl rfl
      · exact Or.inr ⟨w, hw, hold⟩
    · exact Or.inr ⟨x, hx, hstreams⟩
  | cancel | stall =>
    cases hs
    exact Or.inr ⟨x, hx, hstreams⟩

/-- A step writes at most one chunk, behind what the piece of its worker has come to. -/
theorem Ok.write_inside {pieceSize : ℕ} (h : Ok contentLength pieceSize s) {a : Action} {s' : Run} (hs : s.step a = some s') :
    s'.writes = s.writes ∨ ∃ (v : ℕ) (b : WorkerStep) (w : Worker) (i : ℕ) (p : Piece) (n : ℕ), a = .worker v b ∧ s.workers[v]? = some w ∧
      w.streams = true ∧ w.holds = some i ∧ s.queue.pieces[i]? = some p ∧ s'.writes = (p.offset + p.completed, n) :: s.writes ∧
      p.completed + n ≤ p.length := by
  cases a with
  | worker v b =>
    obtain ⟨w, hw, hs⟩ := Option.bind_eq_some_iff.mp hs
    rcases (leaves_workerStep hs).writes with hsame | ⟨i, writer, n, hholds, hstreams, hwriter, hwrites, hn⟩
    · exact Or.inl hsame
    · obtain ⟨p, hp, -, hfit⟩ := h.held v w i hw hholds
      obtain ⟨hoffset, hremaining⟩ := hwriter p hfit
      have hle := h.le i p hp
      rw [hoffset] at hwrites
      exact Or.inr ⟨v, b, w, i, p, n, rfl, hw, hstreams, hholds, hp, hwrites, by omega⟩
  | cancel =>
    cases hs
    exact Or.inl rfl
  | stall =>
    cases hs
    exact Or.inl rfl

/-! ## The end of a run -/

/-- Without an error every piece is done: a free piece would be in front of a worker, and a piece in flight would be held. -/
theorem Ok.all_done {pieceSize : ℕ} (h : Ok contentLength pieceSize s) (herrors : s.errors = some []) :
    ∀ p ∈ s.queue.pieces, p.state = .done := by
  unfold errors at herrors
  rw [Option.ite_none_right_eq_some] at herrors
  obtain ⟨hall, hnone⟩ := herrors
  rw [List.all_eq_true] at hall
  have hexited : ∀ (v : ℕ) (w : Worker), s.workers[v]? = some w → w = .exited none := by
    intro v w hw
    have hmem := List.mem_of_getElem? hw
    have herror := List.filterMap_eq_nil_iff.mp (Option.some.inj hnone) w hmem
    have hdone := hall w hmem
    cases w with
    | exited error =>
      cases herror
      rfl
    | _ => cases hdone
  intro p hp
  obtain ⟨i, hi⟩ := List.mem_iff_getElem?.mp hp
  cases hstate : p.state with
  | free =>
    obtain ⟨v, w, hw, hlook⟩ := h.free i p hi hstate
    rw [hexited v w hw] at hlook
    cases hlook
  | inflight =>
    obtain ⟨v, w, hw, hholds⟩ := h.holder i p hi hstate
    rw [hexited v w hw] at hholds
    cases hholds
  | done => rfl

/-- A run that goes on to `sync_file` has seen no error, or every piece done. -/
theorem verdict_none {stallText : Text} {errors : List Text} (h : s.verdict stallText errors = none) :
    errors = [] ∨ s.queue.isFinished = true := by
  unfold verdict at h
  split at h
  · cases h
  split at h
  · cases h
  split at h
  · rename_i hnil
    exact Or.inl hnil
  · split at h
    · cases h
    rename_i hreal
    split at h
    · rename_i hfinished
      exact Or.inr hfinished
    · dsimp only at h
      split at h
      · -- Some message does not tell of a cancel.
        rename_i hnil
        rw [List.filter_eq_nil_iff] at hnil
        refine absurd (List.all_eq_true.mpr fun e he => ?_) hreal
        have hcontains := hnil e he
        rwa [Bool.not_eq_true', Bool.not_eq_false] at hcontains
      · cases h

end Run

end Http

end Risuko
