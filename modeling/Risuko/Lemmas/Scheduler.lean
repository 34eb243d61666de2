import Risuko.Torrent.Events
import Risuko.Lemmas.ChunkStates
import Risuko.Lemmas.PieceTracker

/-!
# The scheduler keeps its requests and its marks in step

`Scheduler.Sound` is what every event keeps: a chunk asked of a peer is on that peer's list, no list asks twice for a chunk, the
lists stay within the budget, and a piece marked in flight hides no missing chunk. Most events only take requests off lists
(`Trims`); for these it is enough to look at who owns a chunk and at the marks (`Sound.of_trim`).
-/

namespace Risuko

variable {i : Nat}

/-- A request as `chunk_info` describes one: a chunk of a piece. -/
def IsRequest (l : Lengths) (r : Request) : Prop :=
  ∃ (q : ValidPieceIndex l) (c : Nat), c < l.chunkCount q ∧
    r = (q.val, c * chunkSize, min (l.pieceLengthOf q - c * chunkSize) chunkSize)

/-- The chunk a request is for. -/
def Request.chunk (r : Request) : Nat × Nat := (r.1, r.2.1)

/-- A live peer has a request for the chunk on its list. -/
def Holds (peers : OrdMap Nat Peer) (pid p c : Nat) : Prop :=
  ∃ peer, peers.get? pid = some peer ∧ (p, c * chunkSize) ∈ peer.outstanding.map Request.chunk

/-- Peers that have no request they did not have before. -/
def Trims (peers peers' : OrdMap Nat Peer) : Prop :=
  ∀ pid peer', peers'.get? pid = some peer' →
    peer'.outstanding = [] ∨ ∃ peer, peers.get? pid = some peer ∧ peer'.outstanding.Subperm peer.outstanding

namespace Trims

theorem refl (peers : OrdMap Nat Peer) : Trims peers peers := fun _ peer h => Or.inr ⟨peer, h, List.Subperm.refl _⟩

theorem trans {a b c : OrdMap Nat Peer} (hab : Trims a b) (hbc : Trims b c) : Trims a c := by
  intro pid peer' h
  rcases hbc pid peer' h with hnil | ⟨peer, hb, hsub⟩
  · exact Or.inl hnil
  · rcases hab pid peer hb with hnil | ⟨first, ha, hsub'⟩
    · rw [hnil] at hsub
      exact Or.inl (List.subperm_nil.mp hsub)
    · exact Or.inr ⟨first, ha, hsub.trans hsub'⟩

/-- Replacing a peer by one with fewer requests. -/
theorem insert {peers : OrdMap Nat Peer} {pid : Nat} {peer peer' : Peer} (hg : peers.get? pid = some peer)
    (hsub : peer'.outstanding.Subperm peer.outstanding) : Trims peers (peers.insert pid peer') := by
  intro q w hw
  rw [OrdMap.get?_insert] at hw
  split at hw
  · rename_i hq
    subst hq
    cases hw
    exact Or.inr ⟨peer, hg, hsub⟩
  · exact Or.inr ⟨w, hw, List.Subperm.refl _⟩

theorem erase (peers : OrdMap Nat Peer) (pid : Nat) : Trims peers (peers.erase pid) := by
  intro q w hw
  rw [OrdMap.get?_erase] at hw
  split at hw
  · cases hw
  · exact Or.inr ⟨w, hw, List.Subperm.refl _⟩

theorem mapVal (peers : OrdMap Nat Peer) {f : Nat → Peer → Peer}
    (hf : ∀ pid p, (f pid p).outstanding.Subperm p.outstanding) : Trims peers (peers.mapVal f) := by
  intro q w hw
  rw [OrdMap.get?_mapVal, Option.map_eq_some_iff] at hw
  obtain ⟨p, hp, rfl⟩ := hw
  exact Or.inr ⟨p, hp, hf q p⟩

end Trims

/-! ## Requests on a list -/

theorem swapRemove_subperm {α : Type*} {xs : List α} {x : α} (h : xs[i]? = some x) : (swapRemove xs i).Subperm xs :=
  (List.subperm_cons_self ..).trans (swapRemove_perm h).symm.subperm

/-- With distinct chunks, taking a request off the list keeps the others. -/
theorem mem_chunk_swapRemove {xs : List Request} {r : Request} (h : xs[i]? = some r) {k : Nat × Nat} (hk : k ≠ r.chunk)
    (hm : k ∈ xs.map Request.chunk) : k ∈ (swapRemove xs i).map Request.chunk := by
  have hp := (swapRemove_perm h).map Request.chunk
  rw [List.map_cons] at hp
  rcases List.mem_cons.mp (hp.subset hm) with he | he
  · exact absurd he hk
  · exact he

theorem findIdx?_eq_some_mem {α : Type*} {xs : List α} {p : α → Bool} (h : xs.findIdx? p = some i) :
    ∃ x, xs[i]? = some x ∧ p x = true := by
  obtain ⟨hi, hp, _⟩ := List.findIdx?_eq_some_iff_getElem.mp h
  exact ⟨xs[i], List.getElem?_eq_getElem hi, hp⟩

/-! ## The invariant -/

namespace Scheduler

variable {l : Lengths}
variable {peers : OrdMap Nat Peer} {pid p c i : Nat} {peer' peer : Peer} {r : Request}

/-- The part of the invariant about the trackers: a piece marked in flight hides no missing chunk, and a local piece has no
request. -/
structure Marked (s : Scheduler l) : Prop where
  indexed : s.chunkTracker.Indexed False
  visible : ∀ q, s.pieceTracker.haveLocal q = false → s.pieceTracker.inFlight q = true → q.val ∉ s.webseedInflight →
    .missing ∉ s.chunkTracker.statesOf q
  settled : ∀ q, s.pieceTracker.haveLocal q = true → ∀ pid since, .requested pid since ∉ s.chunkTracker.statesOf q

structure Sound (s : Scheduler l) : Prop extends Marked s where
  listed : ∀ pid peer, s.peers.get? pid = some peer → ∀ r ∈ peer.outstanding, IsRequest l r
  distinct : ∀ pid peer, s.peers.get? pid = some peer → (peer.outstanding.map Request.chunk).Nodup
  budget : s.peers.sumOf (fun _ p => p.outstanding.length) ≤ torrentRequestBudget
  owned : ∀ q c pid since, (s.chunkTracker.statesOf q)[c]? = some (.requested pid since) → Holds s.peers pid q.val c

/-- An event that only takes requests off lists keeps the invariant as soon as it keeps the owners and the marks. -/
theorem Sound.of_trim {s s' : Scheduler l} (h : s.Sound) (ht : Trims s.peers s'.peers) (hm : s'.Marked)
    (ho : ∀ q c pid since, (s'.chunkTracker.statesOf q)[c]? = some (.requested pid since) → Holds s'.peers pid q.val c) :
    s'.Sound where
  toMarked := hm
  listed := by
    intro pid peer' hp r hr
    rcases ht pid peer' hp with hnil | ⟨peer, hpeer, hsub⟩
    · rw [hnil] at hr
      cases hr
    · exact h.listed pid peer hpeer r (hsub.subset hr)
  distinct := by
    intro pid peer' hp
    rcases ht pid peer' hp with hnil | ⟨peer, hpeer, hsub⟩
    · rw [hnil]
      exact List.nodup_nil
    · obtain ⟨mid, hperm, hsubl⟩ := hsub
      have := (h.distinct pid peer hpeer).sublist (hsubl.map Request.chunk)
      exact (hperm.map Request.chunk).nodup_iff.mp this
  budget := by
    refine le_trans (OrdMap.sumOf_le ?_) h.budget
    intro pid peer' hp
    rcases ht pid peer' hp with hnil | ⟨peer, hpeer, hsub⟩
    · simp [hnil]
    · rw [hpeer]
      exact hsub.length_le
  owned := ho

/-- An event that leaves the trackers' view of chunks and marks, and every request, where it was. -/
theorem Sound.of_eq {s s' : Scheduler l} (h : s.Sound) (ht : Trims s.peers s'.peers)
    (hk : ∀ pid p c, Holds s.peers pid p c → Holds s'.peers pid p c) (hc : s'.chunkTracker = s.chunkTracker)
    (hl : s'.pieceTracker.haveLocal = s.pieceTracker.haveLocal) (hf : s'.pieceTracker.inFlight = s.pieceTracker.inFlight)
    (hw : s'.webseedInflight = s.webseedInflight) : s'.Sound := by
  refine h.of_trim ht ⟨by rw [hc]; exact h.indexed, fun q hql hqf hqw => ?_, fun q hql => ?_⟩ (fun q c pid since hst => ?_)
  · rw [hl] at hql
    rw [hf] at hqf
    rw [hw] at hqw
    rw [hc]
    exact h.visible q hql hqf hqw
  · rw [hl] at hql
    rw [hc]
    exact h.settled q hql
  · rw [hc] at hst
    exact hk _ _ _ (h.owned q c pid since hst)

theorem sound_start {t : PieceTracker l} (ht : ∀ q, t.inFlight q = false) (ranges : List (Nat × Nat)) :
    (Scheduler.start t ranges).Sound := by
  have hstates : ∀ q, ((ChunkTracker.new l).withPadding ranges).statesOf q =
      ((ChunkTracker.new l).withPadding ranges).initialStates q := fun _ =>
    ChunkTracker.statesOf_of_untracked (t := (ChunkTracker.new l).withPadding ranges) rfl
  refine ⟨⟨ChunkTracker.indexed_new False ranges, ?_, ?_⟩, ?_, ?_, ?_, ?_⟩
  · intro q _ hf
    rw [show (Scheduler.start t ranges).pieceTracker = t from rfl, ht q] at hf
    cases hf
  · intro q _ pid since
    simp only [start, hstates q]
    exact ChunkTracker.not_requested_mem_initialStates _ q pid since
  · intro pid peer hp
    cases hp
  · intro pid peer hp
    cases hp
  · simp [start, torrentRequestBudget]
  · intro q c pid since hst
    simp only [start, hstates q] at hst
    exact absurd (List.mem_of_getElem? hst) (ChunkTracker.not_requested_mem_initialStates _ q pid since)

/-- A request on a list is still there after another peer's entry changed, or after an entry of the same list changed. -/
theorem holds_insert {q : Nat} (h : Holds peers q p c)
    (hself : q = pid → (p, c * chunkSize) ∈ peer'.outstanding.map Request.chunk) : Holds (peers.insert pid peer') q p c := by
  obtain ⟨peer, hg, hm⟩ := h
  by_cases hq : q = pid
  · exact ⟨peer', by rw [hq, OrdMap.get?_insert_self], hself hq⟩
  · exact ⟨peer, by rw [OrdMap.get?_insert_of_ne _ _ hq]; exact hg, hm⟩

theorem Sound.connect {s : Scheduler l} (h : s.Sound) (pid ip maxOutstanding : Nat) :
    ((SchedulerEvent.connect pid ip maxOutstanding).apply s).Sound := by
  simp only [SchedulerEvent.apply]
  split
  · exact h
  · rename_i hnew
    have hnone : s.peers.get? pid = none := by simpa [OrdMap.contains] using hnew
    refine h.of_eq ?_ ?_ rfl rfl rfl rfl
    · intro q w hw
      rw [OrdMap.get?_insert] at hw
      split at hw
      · cases hw
        exact Or.inl rfl
      · exact Or.inr ⟨w, hw, List.Subperm.refl _⟩
    · intro q p c hh
      refine holds_insert hh (fun hq => ?_)
      obtain ⟨peer, hg, _⟩ := hh
      rw [hq, hnone] at hg
      cases hg

/-- Changing a peer without touching its list. -/
theorem Sound.insert_peer {s : Scheduler l} (h : s.Sound) (hg : s.peers.get? pid = some peer)
    (ho : peer'.outstanding = peer.outstanding) : ({ s with peers := s.peers.insert pid peer' } : Scheduler l).Sound := by
  refine h.of_eq (Trims.insert hg (by rw [ho])) ?_ rfl rfl rfl rfl
  rintro q p c ⟨w, hw, hm⟩
  refine holds_insert ⟨w, hw, hm⟩ (fun hq => ?_)
  rw [hq, hg] at hw
  cases hw
  rw [ho]
  exact hm

theorem Sound.retune {s : Scheduler l} (h : s.Sound) (pid : Nat) (peer : Peer) :
    ((SchedulerEvent.retune pid peer).apply s).Sound := by
  simp only [SchedulerEvent.apply]
  split
  · exact h
  · rename_i old hg
    exact h.insert_peer hg rfl

/-- A refresh changes none of the flags the scheduler looks at. -/
theorem flags_refreshes {op : PieceOp l} (hop : op.refreshes = true) (t : PieceTracker l) :
    (op.apply t).haveLocal = t.haveLocal ∧ (op.apply t).inFlight = t.inFlight := by
  cases op with
  | updatePeerHave bitfield idx =>
    simp only [PieceOp.apply, PieceTracker.updatePeerHave]
    split
    · exact ⟨rfl, rfl⟩
    split
    · exact ⟨rfl, rfl⟩
    · split <;> exact ⟨rfl, rfl⟩
  | refreshOrder =>
    simp only [PieceOp.apply, PieceTracker.refreshOrder]
    split
    · exact ⟨rfl, rfl⟩
    split
    · split <;> exact ⟨rfl, rfl⟩
    · exact ⟨rfl, rfl⟩
  | addPeerBitfield bitfield => exact ⟨rfl, rfl⟩
  | removePeerBitfield bitfield => exact ⟨rfl, rfl⟩
  | replacePeerBitfield bitfield replacement => exact ⟨rfl, rfl⟩
  | setLocal idx have' => cases hop
  | setWanted wanted => cases hop
  | markInFlight idx => cases hop
  | clearInFlight idx => cases hop
  | nextRequestable bitfield cursor => cases hop

theorem Sound.refresh {s : Scheduler l} (h : s.Sound) (op : PieceOp l) : ((SchedulerEvent.refresh op).apply s).Sound := by
  simp only [SchedulerEvent.apply]
  split
  · rename_i hop
    obtain ⟨hl, hf⟩ := flags_refreshes hop s.pieceTracker
    exact h.of_eq (Trims.refl _) (fun _ _ _ hh => hh) rfl hl hf rfl
  · exact h

/-! ## Giving chunks back -/

/-- A chunk tracker in which some requests were released and nothing else changed. -/
structure Releases (t t' : ChunkTracker l) : Prop where
  padding : t'.padding = t.padding
  received : ∀ (q : ValidPieceIndex l) (c : Nat), (t'.statesOf q)[c]? = some .received ↔ (t.statesOf q)[c]? = some .received
  requested : ∀ (q : ValidPieceIndex l) (c p since : Nat), (t'.statesOf q)[c]? = some (.requested p since) →
      (t.statesOf q)[c]? = some (.requested p since)

theorem Releases.refl (t : ChunkTracker l) : Releases t t := ⟨rfl, fun _ _ => Iff.rfl, fun _ _ _ _ h => h⟩

theorem Releases.trans {a b c : ChunkTracker l} (hab : Releases a b) (hbc : Releases b c) : Releases a c :=
  ⟨hbc.padding.trans hab.padding, fun q i => (hbc.received q i).trans (hab.received q i),
    fun q i p since h => hab.requested q i p since (hbc.requested q i p since h)⟩

/-- Setting a requested chunk of one piece to missing releases it. -/
theorem releases_set {t t' : ChunkTracker l} {piece : ValidPieceIndex l} {since : Nat}
    (hr : (t.statesOf piece)[i]? = some (.requested p since)) (hp : t'.padding = t.padding)
    (hs : ∀ q, t'.statesOf q = if q = piece then (t.statesOf piece).set i .missing else t.statesOf q) : Releases t t' := by
  refine ⟨hp, fun q c => ?_, fun q c p' since' h => ?_⟩
  · rw [hs q]
    split
    · rename_i hq
      subst hq
      rw [List.getElem?_set]
      split
      · rename_i hic
        subst hic
        rw [hr]
        split <;> simp
      · rfl
    · rfl
  · rw [hs q] at h
    split at h
    · rename_i hq
      subst hq
      rw [List.getElem?_set] at h
      split at h
      · split at h <;> cases h
      · exact h
    · exact h

/-- What giving a request back does: some requests are released, the one given back among them, and the marks stay right. The
lists, the assemblies and the ghosts are as they were. -/
theorem giveBack_spec {s : Scheduler l} (h : s.Marked) (pid : Nat) (hr : IsRequest l r) :
    (s.giveBack pid r.1 r.2.1).Marked ∧ Releases s.chunkTracker (s.giveBack pid r.1 r.2.1).chunkTracker ∧
      (∀ q c since, (q.val, c * chunkSize) = r.chunk →
        ((s.giveBack pid r.1 r.2.1).chunkTracker.statesOf q)[c]? ≠ some (.requested pid since)) ∧
      ∃ t ct, s.giveBack pid r.1 r.2.1 = { s with pieceTracker := t, chunkTracker := ct } ∧
        t.haveLocal = s.pieceTracker.haveLocal := by
  obtain ⟨piece, i, hi, rfl⟩ := hr
  have hval : l.validatePiece piece.val = .ok piece := by
    unfold Lengths.validatePiece
    rw [dif_pos (Nat.le_of_lt_succ piece.isLt)]
  have hdiv : i * chunkSize / chunkSize = i := Nat.mul_div_cancel i (by decide)
  have hchunk : ∀ (q : ValidPieceIndex l) c, (q.val, c * chunkSize) =
      Request.chunk (piece.val, i * chunkSize, min (l.pieceLengthOf piece - i * chunkSize) chunkSize) → q = piece ∧ c = i := by
    intro q c he
    simp only [Request.chunk, Prod.mk.injEq] at he
    exact ⟨Fin.ext he.1, Nat.eq_of_mul_eq_mul_right (by decide) he.2⟩
  have hidx := h.indexed.rejectChunk piece i pid
  unfold giveBack unblock
  simp only [hval, hdiv]
  have hmiss := ChunkTracker.hasMissing_iff hidx piece
  -- the flags after the call: a piece with a missing chunk loses its mark
  have hmarks : ∀ {s' : Scheduler l}, s'.chunkTracker = s.chunkTracker.rejectChunk piece i pid →
      s'.webseedInflight = s.webseedInflight → s'.pieceTracker.haveLocal = s.pieceTracker.haveLocal →
      (∀ q, s'.pieceTracker.inFlight q = true → s.pieceTracker.inFlight q = true) →
      (.missing ∈ (s.chunkTracker.rejectChunk piece i pid).statesOf piece → s'.pieceTracker.inFlight piece = false) →
      s'.Marked := by
    intro s' hct hw hl hf hclear
    refine ⟨by rw [hct]; exact hidx, fun q hql hqf hqw => ?_, fun q hql p since hm => ?_⟩
    · rw [hl] at hql
      rw [hw] at hqw
      rw [hct]
      by_cases hq : q = piece
      · subst hq
        intro hm
        rw [hclear hm] at hqf
        cases hqf
      · rcases ChunkTracker.statesOf_rejectChunk s.chunkTracker piece i pid with ⟨_, hst⟩ | ⟨_, hst⟩
        · rw [hst q, if_neg hq]
          exact h.visible q hql (hf q hqf) hqw
        · rw [hst q]
          exact h.visible q hql (hf q hqf) hqw
    · rw [hl] at hql
      rw [hct] at hm
      obtain ⟨c, hc⟩ := List.mem_iff_getElem?.mp hm
      refine h.settled q hql p since ?_
      rcases ChunkTracker.statesOf_rejectChunk s.chunkTracker piece i pid with ⟨⟨since', hreq⟩, hst⟩ | ⟨_, hst⟩
      · exact List.mem_of_getElem? ((releases_set hreq (ChunkTracker.padding_rejectChunk ..) hst).requested q c p since hc)
      · rw [hst q] at hm
        exact hm
  have hrel : Releases s.chunkTracker (s.chunkTracker.rejectChunk piece i pid) := by
    rcases ChunkTracker.statesOf_rejectChunk s.chunkTracker piece i pid with ⟨⟨since', hreq⟩, hst⟩ | ⟨_, hst⟩
    · exact releases_set hreq (ChunkTracker.padding_rejectChunk ..) hst
    · exact ⟨ChunkTracker.padding_rejectChunk .., fun q c => by rw [hst q], fun q c p since hc => by rwa [hst q] at hc⟩
  have hgone : ∀ (q : ValidPieceIndex l) c since, (q.val, c * chunkSize) =
      Request.chunk (piece.val, i * chunkSize, min (l.pieceLengthOf piece - i * chunkSize) chunkSize) →
      ((s.chunkTracker.rejectChunk piece i pid).statesOf q)[c]? ≠ some (.requested pid since) := by
    intro q c since he
    obtain ⟨rfl, rfl⟩ := hchunk q c he
    rcases ChunkTracker.statesOf_rejectChunk s.chunkTracker q c pid with ⟨_, hst⟩ | ⟨hno, hst⟩
    · rw [hst q, if_pos rfl, List.getElem?_set]
      split
      · split <;> simp
      · rename_i hne
        exact absurd rfl hne
    · rw [hst q]
      exact hno since
  split
  · refine ⟨hmarks rfl rfl ?_ ?_ ?_, hrel, hgone, _, _, rfl, ?_⟩
    · exact PieceTracker.haveLocal_clearInFlight _ _
    · intro q hq
      rw [PieceTracker.inFlight_clearInFlight] at hq
      by_cases hqp : q = piece
      · subst hqp
        simp at hq
      · rwa [Function.update_of_ne hqp] at hq
    · intro _
      simp
    · exact PieceTracker.haveLocal_clearInFlight _ _
  · rename_i hno
    refine ⟨hmarks rfl rfl rfl (fun _ hq => hq) (fun hm => absurd (hmiss.mpr hm) hno), hrel, hgone, _, _, rfl, rfl⟩

/-- Giving several requests back, one after the other. -/
theorem foldl_giveBack_spec (pid : Nat) (rs : List Request) {s : Scheduler l} (h : s.Marked) (hr : ∀ r ∈ rs, IsRequest l r) :
    ∃ t ct, rs.foldl (fun s r => s.giveBack pid r.1 r.2.1) s = { s with pieceTracker := t, chunkTracker := ct } ∧
      ({ s with pieceTracker := t, chunkTracker := ct } : Scheduler l).Marked ∧ Releases s.chunkTracker ct ∧
      t.haveLocal = s.pieceTracker.haveLocal ∧
      ∀ (q : ValidPieceIndex l) c since, (q.val, c * chunkSize) ∈ rs.map Request.chunk →
        (ct.statesOf q)[c]? ≠ some (.requested pid since) := by
  induction rs generalizing s with
  | nil => exact ⟨s.pieceTracker, s.chunkTracker, rfl, h, Releases.refl _, rfl, by simp⟩
  | cons r rs ih =>
    obtain ⟨hm, hrel, hgone, t₁, ct₁, heq, hl⟩ := giveBack_spec h pid (hr r (List.mem_cons_self ..))
    obtain ⟨t, ct, hfold, hm', hrel', hl', hgone'⟩ := ih hm (fun r' hr' => hr r' (List.mem_cons_of_mem _ hr'))
    refine ⟨t, ct, ?_, ?_, hrel.trans hrel', ?_, fun q c since hmem hst => ?_⟩
    · rw [List.foldl_cons, hfold, heq]
    · rw [heq] at hm'
      exact hm'
    · rw [hl', heq, hl]
    · rw [List.map_cons, List.mem_cons] at hmem
      rcases hmem with he | he
      · exact hgone q c since he (hrel'.requested q c pid since hst)
      · exact hgone' q c since he hst

theorem Marked.of_eq {s s' : Scheduler l} (h : s.Marked) (hc : s'.chunkTracker = s.chunkTracker)
    (hl : s'.pieceTracker.haveLocal = s.pieceTracker.haveLocal) (hf : s'.pieceTracker.inFlight = s.pieceTracker.inFlight)
    (hw : s'.webseedInflight = s.webseedInflight) : s'.Marked :=
  ⟨by rw [hc]; exact h.indexed, by rw [hl, hf, hw, hc]; exact h.visible, by rw [hl, hc]; exact h.settled⟩

theorem outstanding_foldl_remember (rs : List Request) (p : Peer) :
    (rs.foldl Peer.rememberCanceledRequest p).outstanding = p.outstanding := by
  induction rs generalizing p with
  | nil => rfl
  | cons r rs ih => rw [List.foldl_cons, ih]; rfl

theorem Sound.releaseChokedRequests {s : Scheduler l} (h : s.Sound) (pid : Nat) : (s.releaseChokedRequests pid).Sound := by
  unfold Scheduler.releaseChokedRequests
  split
  · exact h
  rename_i peer hg
  have hnil : (peer.outstanding.foldl Peer.rememberCanceledRequest { peer with outstanding := [] }).outstanding = [] := by
    rw [outstanding_foldl_remember]
  generalize peer.outstanding.foldl Peer.rememberCanceledRequest { peer with outstanding := [] } = released at hnil
  have hm : ({ s with peers := s.peers.insert pid released } : Scheduler l).Marked := h.toMarked.of_eq rfl rfl rfl rfl
  obtain ⟨t, ct, hfold, hm', hrel, _, hgone⟩ := foldl_giveBack_spec pid peer.outstanding hm (h.listed pid peer hg)
  simp only [hfold]
  refine h.of_trim (Trims.insert hg (by rw [hnil]; exact List.nil_subperm)) hm' (fun q c p since hst => ?_)
  have hh := h.owned q c p since (hrel.requested q c p since hst)
  refine holds_insert hh (fun hp => ?_)
  obtain ⟨w, hw, hmem⟩ := hh
  rw [hp, hg] at hw
  cases hw
  rw [hp] at hst
  exact absurd hst (hgone q c since hmem)

/-- Taking one request off a peer's list and giving its chunk back. -/
theorem Sound.take_giveBack {s : Scheduler l} (h : s.Sound)
    (hg : s.peers.get? pid = some peer) (hr : peer.outstanding[i]? = some r) (ho : peer'.outstanding = swapRemove peer.outstanding i) :
    (giveBack { s with peers := s.peers.insert pid peer' } pid r.1 r.2.1).Sound := by
  have hm : ({ s with peers := s.peers.insert pid peer' } : Scheduler l).Marked := h.toMarked.of_eq rfl rfl rfl rfl
  obtain ⟨hm', hrel, hgone, t, ct, heq, _⟩ := giveBack_spec hm pid (h.listed pid peer hg r (List.mem_of_getElem? hr))
  rw [heq] at hm' hrel hgone ⊢
  refine h.of_trim (Trims.insert hg (by rw [ho]; exact swapRemove_subperm hr)) hm' (fun q c p since hst => ?_)
  have hh := h.owned q c p since (hrel.requested q c p since hst)
  refine holds_insert hh (fun hp => ?_)
  obtain ⟨w, hw, hmem⟩ := hh
  rw [hp, hg] at hw
  cases hw
  rw [hp] at hst
  rw [ho]
  exact mem_chunk_swapRemove hr (fun he => hgone q c since he hst) hmem

theorem Sound.applyRequestReject {s : Scheduler l} (h : s.Sound) (pid : Nat) (key : Request) (pipeline : Nat × Nat) (now : Nat) :
    (s.applyRequestReject pid key pipeline now).1.Sound := by
  unfold Scheduler.applyRequestReject
  split
  · exact h
  rename_i peer hg
  split
  · exact h.insert_peer hg rfl
  rename_i i hidx
  obtain ⟨r, hr, hkey⟩ := findIdx?_eq_some_mem hidx
  obtain rfl : r = key := by simpa using hkey
  refine h.take_giveBack hg hr ?_
  simp only
  -- none of the later changes to the peer touches its list
  split
  · split
    · split <;> rfl
    · split <;> rfl
  · split <;> rfl

/-! ## The tick's reclaim -/

theorem clearInFlightAll_spec (indices : List Nat) (t : PieceTracker l) :
    (clearInFlightAll t indices).haveLocal = t.haveLocal ∧
      ∀ q, (clearInFlightAll t indices).inFlight q = (t.inFlight q && decide (q.val ∉ indices)) := by
  induction indices generalizing t with
  | nil => simp [clearInFlightAll]
  | cons i rest ih =>
    unfold clearInFlightAll at ih ⊢
    rw [List.foldl_cons]
    cases hv : l.validatePiece i with
    | error e =>
      simp only
      refine ⟨(ih t).1, fun q => ?_⟩
      rw [(ih t).2 q]
      have hne : q.val ≠ i := by
        rintro rfl
        unfold Lengths.validatePiece at hv
        rw [dif_pos (Nat.le_of_lt_succ q.isLt)] at hv
        cases hv
      simp [hne]
    | ok vpi =>
      simp only
      have hval : vpi.val = i := by
        unfold Lengths.validatePiece at hv
        split at hv
        · cases hv
          rfl
        · cases hv
      refine ⟨by rw [(ih _).1, PieceTracker.haveLocal_clearInFlight], fun q => ?_⟩
      rw [(ih _).2 q, PieceTracker.inFlight_clearInFlight]
      by_cases hq : q = vpi
      · subst hq
        simp [hval]
      · have hne : q.val ≠ i := by rw [← hval]; exact Fin.val_ne_of_ne hq
        simp [Function.update_of_ne hq, hne]

/-- Taking reclaimed requests off the lists keeps every other request. -/
theorem foldl_reclaimFromPeer_spec (pipeline : Nat × Nat) (rs : List ReclaimedChunk) (peers : OrdMap Nat Peer) :
    Trims peers (rs.foldl (reclaimFromPeer pipeline) peers) ∧
      ∀ pid p c, Holds peers pid p c → (∀ r ∈ rs, ¬ (r.peer = pid ∧ r.piece = p ∧ r.begin = c * chunkSize)) →
        Holds (rs.foldl (reclaimFromPeer pipeline) peers) pid p c := by
  induction rs generalizing peers with
  | nil => exact ⟨Trims.refl _, fun _ _ _ h _ => h⟩
  | cons r rs ih =>
    have hone : Trims peers (reclaimFromPeer pipeline peers r) ∧
        ∀ pid p c, Holds peers pid p c → ¬ (r.peer = pid ∧ r.piece = p ∧ r.begin = c * chunkSize) →
          Holds (reclaimFromPeer pipeline peers r) pid p c := by
      unfold reclaimFromPeer
      split
      · exact ⟨Trims.refl _, fun _ _ _ h _ => h⟩
      rename_i peer hg
      have hout : (if (!peer.snubbing) = true then peer.markSnubbed.shrinkWindow pipeline.1 pipeline.2 else peer).outstanding =
          peer.outstanding := by
        split <;> rfl
      generalize (if (!peer.snubbing) = true then peer.markSnubbed.shrinkWindow pipeline.1 pipeline.2 else peer) = peer₁ at hout
      simp only
      split
      · refine ⟨Trims.insert hg (by rw [hout]), fun pid p c hh _ => holds_insert hh (fun hp => ?_)⟩
        obtain ⟨w, hw, hm⟩ := hh
        rw [hp, hg] at hw
        cases hw
        rw [hout]
        exact hm
      · rename_i slot hslot
        obtain ⟨o, ho, hmatch⟩ := findIdx?_eq_some_mem hslot
        simp only [Bool.and_eq_true, beq_iff_eq] at hmatch
        rw [hout] at ho
        refine ⟨Trims.insert hg ?_, fun pid p c hh hne => holds_insert hh (fun hp => ?_)⟩
        · simp only [Peer.rememberCanceledRequest, hout]
          exact swapRemove_subperm ho
        · obtain ⟨w, hw, hm⟩ := hh
          rw [hp, hg] at hw
          cases hw
          simp only [Peer.rememberCanceledRequest, hout]
          refine mem_chunk_swapRemove ho (fun he => hne ?_) hm
          simp only [Request.chunk, Prod.mk.injEq] at he
          exact ⟨hp.symm, by rw [← hmatch.1, he.1], by rw [← hmatch.2, he.2]⟩
    rw [List.foldl_cons]
    refine ⟨hone.1.trans (ih _).1, fun pid p c hh hne => ?_⟩
    exact (ih _).2 pid p c (hone.2 pid p c hh (hne r (List.mem_cons_self ..))) (fun r' hr' => hne r' (List.mem_cons_of_mem _ hr'))

/-- Freeing requests keeps the marks right when every piece with a freed chunk loses its mark. -/
theorem Marked.of_freed {s s' : Scheduler l} (h : s.Marked) {sel : Nat → Nat → Bool} (hi : s'.chunkTracker.Indexed False)
    (hs : ∀ q, s'.chunkTracker.statesOf q = (s.chunkTracker.statesOf q).map (PieceChunks.freedState sel))
    (hl : s'.pieceTracker.haveLocal = s.pieceTracker.haveLocal) (hw : s'.webseedInflight = s.webseedInflight)
    (hf : ∀ q, s'.pieceTracker.inFlight q = true → s.pieceTracker.inFlight q = true ∧
      ∀ p since, .requested p since ∈ s.chunkTracker.statesOf q → sel p since = false) : s'.Marked := by
  refine ⟨hi, fun q hql hqf hqw hm => ?_, fun q hql p since hm => ?_⟩
  · rw [hl] at hql
    rw [hw] at hqw
    rw [hs q] at hm
    obtain ⟨st, hst, hfr⟩ := List.mem_map.mp hm
    rcases ChunkTracker.freedState_eq_missing hfr with rfl | ⟨p, since, rfl, hsel⟩
    · exact h.visible q hql (hf q hqf).1 hqw hst
    · rw [(hf q hqf).2 p since hst] at hsel
      cases hsel
  · rw [hl] at hql
    rw [hs q] at hm
    obtain ⟨st, hst, hfr⟩ := List.mem_map.mp hm
    rw [(ChunkTracker.freedState_eq_requested.mp hfr).1] at hst
    exact h.settled q hql p since hst

theorem Sound.reclaim {s : Scheduler l} (h : s.Sound) (now timeout : Nat) (pipeline : Nat × Nat) :
    (s.reclaim now timeout pipeline).Sound := by
  obtain ⟨htrim, hkeep⟩ := foldl_reclaimFromPeer_spec pipeline (s.chunkTracker.reclaimStale now timeout).2 s.peers
  have hst := fun q => (ChunkTracker.statesOf_reclaimStale s.chunkTracker now timeout q).1
  obtain ⟨hl, hf⟩ := clearInFlightAll_spec ((s.chunkTracker.reclaimStale now timeout).2.map ReclaimedChunk.piece).dedup s.pieceTracker
  refine h.of_trim htrim ?_ (fun q c pid since hreq => ?_)
  · refine h.toMarked.of_freed (h.indexed.reclaimStale now timeout) hst hl rfl (fun q hq => ?_)
    have hq' : (clearInFlightAll s.pieceTracker
        ((s.chunkTracker.reclaimStale now timeout).2.map ReclaimedChunk.piece).dedup).inFlight q = true := hq
    rw [hf q, Bool.and_eq_true, decide_eq_true_eq, List.mem_dedup] at hq'
    refine ⟨hq'.1, fun p since hmem => ?_⟩
    by_contra hsel
    obtain ⟨c, hc⟩ := List.mem_iff_getElem?.mp hmem
    refine hq'.2 (List.mem_map.mpr ⟨⟨q.val, c * chunkSize, p⟩, ?_, rfl⟩)
    exact (ChunkTracker.mem_reclaimStale h.indexed).mpr ⟨q, c, since, rfl, hc, by simpa using hsel⟩
  · have hreq' : ((s.chunkTracker.reclaimStale now timeout).1.statesOf q)[c]? = some (.requested pid since) := hreq
    rw [hst q, List.getElem?_map, Option.map_eq_some_iff] at hreq'
    obtain ⟨st, hold, hfr⟩ := hreq'
    obtain ⟨rfl, hsel⟩ := ChunkTracker.freedState_eq_requested.mp hfr
    refine hkeep pid q.val c (h.owned q c pid since hold) (fun r hr => ?_)
    rintro ⟨hp, hpiece, hbegin⟩
    obtain ⟨q', c', since', hreq, hold', hage⟩ := (ChunkTracker.mem_reclaimStale h.indexed).mp hr
    have hpc := hpiece
    have hbg := hbegin
    rw [hreq] at hpc hbg
    obtain rfl : q' = q := Fin.ext hpc
    obtain rfl : c' = c := Nat.eq_of_mul_eq_mul_right (by decide) hbg
    rw [hold, hp] at hold'
    cases hold'
    simp only [decide_eq_false_iff_not] at hsel
    exact hsel hage

/-! ## Disconnects -/

/-- What `release_peer_scheduler_state` does to the freed pieces: they lose their mark, and an assembly no peer gave anything to
may go. -/
theorem foldl_releasePiece_spec (ps : List Nat) (s : Scheduler l) :
    ∃ t asm, ps.foldl releasePiece s = { s with pieceTracker := t, pieceAssemblies := asm } ∧
      t.haveLocal = s.pieceTracker.haveLocal ∧ (∀ q, t.inFlight q = (s.pieceTracker.inFlight q && decide (q.val ∉ ps))) ∧
      ∀ k, asm.get? k = s.pieceAssemblies.get? k ∨
        (asm.get? k = none ∧ ∃ a, s.pieceAssemblies.get? k = some a ∧ onlyPadding a = true) := by
  induction ps generalizing s with
  | nil => exact ⟨s.pieceTracker, s.pieceAssemblies, rfl, rfl, by simp, fun k => Or.inl rfl⟩
  | cons p ps ih =>
    obtain ⟨hl, hf⟩ := clearInFlightAll_spec [p] s.pieceTracker
    have hone : ∃ asm, releasePiece s p = { s with pieceTracker := clearInFlightAll s.pieceTracker [p], pieceAssemblies := asm } ∧
        ∀ k, asm.get? k = s.pieceAssemblies.get? k ∨
          (asm.get? k = none ∧ ∃ a, s.pieceAssemblies.get? k = some a ∧ onlyPadding a = true) := by
      unfold releasePiece
      simp only
      split
      · exact ⟨_, rfl, fun k => Or.inl rfl⟩
      rename_i a ha
      split
      · rename_i honly
        refine ⟨_, rfl, fun k => ?_⟩
        rw [OrdMap.get?_erase]
        split
        · rename_i hk
          subst hk
          exact Or.inr ⟨rfl, a, ha, honly⟩
        · exact Or.inl rfl
      · exact ⟨_, rfl, fun k => Or.inl rfl⟩
    obtain ⟨asm₁, heq, hasm₁⟩ := hone
    obtain ⟨t, asm, hfold, hl', hf', hasm⟩ := ih (releasePiece s p)
    rw [heq] at hfold hl' hf' hasm
    refine ⟨t, asm, by rw [List.foldl_cons, heq, hfold], hl'.trans hl, fun q => ?_, fun k => ?_⟩
    · rw [hf' q]
      simp only [hf q]
      by_cases h1 : q.val = p <;> by_cases h2 : q.val ∈ ps <;> simp [h1, h2]
    · rcases hasm k with hk | ⟨hk, a, ha, honly⟩
      · rcases hasm₁ k with hk₁ | ⟨hk₁, ha⟩
        · exact Or.inl (hk.trans hk₁)
        · exact Or.inr ⟨hk.trans hk₁, ha⟩
      · rcases hasm₁ k with hk₁ | ⟨hk₁, _⟩
        · exact Or.inr ⟨hk, a, hk₁ ▸ ha, honly⟩
        · simp only at ha
          rw [hk₁] at ha
          cases ha

theorem Sound.disconnect {s : Scheduler l} (h : s.Sound) (pid : Nat) : (s.disconnect pid).Sound := by
  unfold Scheduler.disconnect
  split
  · exact h
  rename_i peer hg
  unfold releasePeerSchedulerState
  simp only
  have hst := fun q => (ChunkTracker.statesOf_releasePeer s.chunkTracker pid q).1
  obtain ⟨t, asm, hfold, hl, hf, _⟩ := foldl_releasePiece_spec (s.chunkTracker.releasePeer pid).2
    { s with
      peers := s.peers.erase pid
      pieceTracker := s.pieceTracker.removePeerBitfield peer.bitfield
      chunkTracker := (s.chunkTracker.releasePeer pid).1 }
  rw [hfold]
  refine h.of_trim (Trims.erase _ _) ?_ (fun q c p since hreq => ?_)
  · refine h.toMarked.of_freed (h.indexed.releasePeer pid) hst hl rfl (fun q hq => ?_)
    have hq' : t.inFlight q = true := hq
    rw [hf q, Bool.and_eq_true, decide_eq_true_eq] at hq'
    refine ⟨hq'.1, fun p since hmem => ?_⟩
    by_contra hsel
    simp only [Bool.not_eq_false, beq_iff_eq] at hsel
    subst hsel
    exact hq'.2 (ChunkTracker.mem_releasePeer hmem)
  · have hreq' : ((s.chunkTracker.releasePeer pid).1.statesOf q)[c]? = some (.requested p since) := hreq
    rw [hst q, List.getElem?_map, Option.map_eq_some_iff] at hreq'
    obtain ⟨st, hold, hfr⟩ := hreq'
    obtain ⟨rfl, hsel⟩ := ChunkTracker.freedState_eq_requested.mp hfr
    obtain ⟨w, hw, hm⟩ := h.owned q c p since hold
    have hne : p ≠ pid := by simpa using hsel
    exact ⟨w, by rw [OrdMap.get?_erase_of_ne _ hne]; exact hw, hm⟩

/-! ## Verify results -/

/-- Canceling the requests for a piece takes only these off a list. -/
theorem cancelPieceLoop_spec (pieceIndex fuel i : Nat) (peer : Peer) :
    (cancelPieceLoop pieceIndex fuel i peer).outstanding.Subperm peer.outstanding ∧
      ∀ k ∈ peer.outstanding.map Request.chunk, k.1 ≠ pieceIndex →
        k ∈ (cancelPieceLoop pieceIndex fuel i peer).outstanding.map Request.chunk := by
  induction fuel generalizing i peer with
  | zero => exact ⟨List.Subperm.refl _, fun k hk _ => hk⟩
  | succ fuel ih =>
    unfold cancelPieceLoop
    split
    · exact ⟨List.Subperm.refl _, fun k hk _ => hk⟩
    rename_i r hr
    split
    · rename_i hpiece
      obtain ⟨hsub, hkeep⟩ := ih i (({ peer with outstanding := swapRemove peer.outstanding i } : Peer).rememberCanceledRequest r)
      refine ⟨hsub.trans (swapRemove_subperm hr), fun k hk hne => hkeep k ?_ hne⟩
      refine mem_chunk_swapRemove hr (fun he => hne ?_) hk
      rw [he]
      exact beq_iff_eq.mp hpiece
    · exact ih (i + 1) peer

theorem holds_mapVal {f : Nat → Peer → Peer} (h : Holds peers pid p c)
    (hf : ∀ w, (p, c * chunkSize) ∈ w.outstanding.map Request.chunk →
      (p, c * chunkSize) ∈ (f pid w).outstanding.map Request.chunk) : Holds (peers.mapVal f) pid p c := by
  obtain ⟨w, hw, hm⟩ := h
  exact ⟨f pid w, by rw [OrdMap.get?_mapVal, hw]; rfl, hf w hm⟩

theorem cancelPieceOutstanding_spec (peers : OrdMap Nat Peer) (pieceIndex : Nat) :
    Trims peers (cancelPieceOutstanding peers pieceIndex) ∧
      ∀ pid p c, Holds peers pid p c → p ≠ pieceIndex → Holds (cancelPieceOutstanding peers pieceIndex) pid p c :=
  ⟨Trims.mapVal peers (fun _ p => (cancelPieceLoop_spec pieceIndex _ 0 p).1),
    fun _ _ _ hh hne => holds_mapVal hh (fun w hm => (cancelPieceLoop_spec pieceIndex _ 0 w).2 _ hm hne)⟩

/-- Replacing every peer by one with the same list. -/
theorem mapVal_same_spec (peers : OrdMap Nat Peer) {f : Nat → Peer → Peer} (hf : ∀ pid p, (f pid p).outstanding = p.outstanding) :
    Trims peers (peers.mapVal f) ∧ ∀ pid p c, Holds peers pid p c → Holds (peers.mapVal f) pid p c :=
  ⟨Trims.mapVal peers (fun pid p => by rw [hf]), fun _ _ _ hh => holds_mapVal hh (fun w hm => by rw [hf]; exact hm)⟩

/-- Putting a piece back to its first states, with its requests off the lists and its mark cleared. -/
theorem Sound.of_restart {s s' : Scheduler l} (h : s.Sound) (vpi : ValidPieceIndex l) (ht : Trims s.peers s'.peers)
    (hk : ∀ pid p c, Holds s.peers pid p c → p ≠ vpi.val → Holds s'.peers pid p c) (hi : s'.chunkTracker.Indexed False)
    (hs : ∀ q, s'.chunkTracker.statesOf q = if q = vpi then s.chunkTracker.initialStates vpi else s.chunkTracker.statesOf q)
    (hl : ∀ q, q ≠ vpi → s'.pieceTracker.haveLocal q = s.pieceTracker.haveLocal q)
    (hf : ∀ q, q ≠ vpi → s'.pieceTracker.inFlight q = s.pieceTracker.inFlight q)
    (hf' : s'.pieceTracker.inFlight vpi = false)
    (hw : ∀ q, q ≠ vpi → q.val ∈ s.webseedInflight → q.val ∈ s'.webseedInflight) : s'.Sound := by
  refine h.of_trim ht ⟨hi, fun q hql hqf hqw => ?_, fun q hql p since hm => ?_⟩ (fun q c p since hst => ?_)
  · by_cases hq : q = vpi
    · subst hq
      rw [hf'] at hqf
      cases hqf
    · rw [hs q, if_neg hq]
      rw [hl q hq] at hql
      rw [hf q hq] at hqf
      exact h.visible q hql hqf (fun hmem => hqw (hw q hq hmem))
  · by_cases hq : q = vpi
    · subst hq
      rw [hs q, if_pos rfl] at hm
      exact ChunkTracker.not_requested_mem_initialStates _ q p since hm
    · rw [hs q, if_neg hq] at hm
      rw [hl q hq] at hql
      exact h.settled q hql p since hm
  · by_cases hq : q = vpi
    · subst hq
      rw [hs q, if_pos rfl] at hst
      exact absurd (List.mem_of_getElem? hst) (ChunkTracker.not_requested_mem_initialStates _ q p since)
    · rw [hs q, if_neg hq] at hst
      exact hk p q.val c (h.owned q c p since hst) (Fin.val_ne_of_ne hq)

theorem validatePiece_ok {vpi : ValidPieceIndex l} (h : l.validatePiece i = .ok vpi) : vpi.val = i := by
  unfold Lengths.validatePiece at h
  split at h
  · cases h
    rfl
  · cases h

/-- A verify result, also one of a piece that a web seed has just stopped fetching. -/
theorem Sound.processVerifyResult {s : Scheduler l} (h : s.Sound) (vr : Webseed.VerifyResult) (sent : Nat → Bool) {web : List Nat}
    (hw : ∀ i, i ≠ vr.pieceIndex → i ∈ s.webseedInflight → i ∈ web) :
    (Scheduler.processVerifyResult { s with webseedInflight := web } vr sent).Sound := by
  unfold Scheduler.processVerifyResult
  split
  · rename_i e hv
    -- the index is not one of a piece
    refine h.of_trim (Trims.refl _) ⟨h.indexed, fun q hql hqf hqw => ?_, h.settled⟩ h.owned
    refine h.visible q hql hqf (fun hmem => hqw (hw q.val (fun he => ?_) hmem))
    unfold Lengths.validatePiece at hv
    rw [dif_pos (by rw [← he]; exact Nat.le_of_lt_succ q.isLt)] at hv
    cases hv
  · rename_i vpi hv
    have hval := validatePiece_ok hv
    have hne : ∀ q : ValidPieceIndex l, q ≠ vpi → q.val ≠ vr.pieceIndex := fun q hq => by rw [← hval]; exact Fin.val_ne_of_ne hq
    have hflight : ∀ q, q ≠ vpi → (s.pieceTracker.clearInFlight vpi).inFlight q = s.pieceTracker.inFlight q := by
      intro q hq
      rw [PieceTracker.inFlight_clearInFlight, Function.update_of_ne hq]
    simp only
    split
    · -- a failed fetch by a web seed: only the mark is cleared
      refine h.of_trim (Trims.refl _) ⟨h.indexed, fun q hql hqf hqw => ?_, fun q hql => ?_⟩ h.owned
      · by_cases hq : q = vpi
        · subst hq
          simp at hqf
        · simp only [hflight q hq, PieceTracker.haveLocal_clearInFlight] at hqf hql
          exact h.visible q hql hqf (fun hmem => hqw (hw q.val (hne q hq) hmem))
      · simp only [PieceTracker.haveLocal_clearInFlight] at hql
        exact h.settled q hql
    · obtain ⟨ht, hk⟩ := cancelPieceOutstanding_spec s.peers vr.pieceIndex
      split
      · obtain ⟨ht', hk'⟩ := mapVal_same_spec (cancelPieceOutstanding s.peers vr.pieceIndex)
          (f := fun pid p => if bitAt p.bitfield vr.pieceIndex then p.sendInterested (sent pid) else p)
          (by
            intro pid p
            simp only [Peer.sendInterested]
            split
            · split <;> rfl
            · rfl)
        refine h.of_restart vpi (ht.trans ht') (fun pid p c hh hp => hk' _ _ _ (hk _ _ _ hh (by rw [← hval]; exact hp)))
          (h.indexed.resetPiece vpi) (ChunkTracker.statesOf_resetPiece _ vpi) ?_ hflight ?_ (fun q hq => hw q.val (hne q hq))
        · intro q _
          simp
        · simp
      · obtain ⟨ht', hk'⟩ := mapVal_same_spec (cancelPieceOutstanding s.peers vr.pieceIndex)
          (f := fun pid p =>
            let p := { p with
              remoteAllowedFast := p.remoteAllowedFast.filter (fun i => i != vr.pieceIndex)
              suggestedPieces := p.suggestedPieces.filter (fun i => i != vr.pieceIndex) }
            if (!(s.pieceTracker.clearInFlight vpi).hasLocal vpi) &&
                (((s.pieceTracker.clearInFlight vpi).setLocal vpi true).isComplete ||
                  (p.amInterested && bitAt p.bitfield vr.pieceIndex)) then
              refreshInterest ((s.pieceTracker.clearInFlight vpi).setLocal vpi true) p (sent pid) else p)
          (by
            intro pid p
            simp only [refreshInterest]
            split
            · split <;> rfl
            · rfl)
        refine h.of_restart vpi (ht.trans ht') (fun pid p c hh hp => hk' _ _ _ (hk _ _ _ hh (by rw [← hval]; exact hp)))
          (h.indexed.forgetPiece vpi) (ChunkTracker.statesOf_forgetPiece _ vpi) ?_ ?_ ?_ (fun q hq => hw q.val (hne q hq))
        · intro q hq
          simp [Function.update_of_ne hq]
        · intro q hq
          rw [PieceTracker.inFlight_setLocal_true, Function.update_of_ne hq]
          exact hflight q hq
        · rw [PieceTracker.inFlight_setLocal_true, Function.update_self]

theorem Sound.webseedResult {s : Scheduler l} (h : s.Sound) (vr : Webseed.VerifyResult) (sent : Nat → Bool) :
    (s.webseedResult vr sent).Sound := by
  refine h.processVerifyResult vr sent (fun i hi hmem => List.mem_filter.mpr ⟨hmem, ?_⟩)
  simpa using hi

/-! ## Piece messages -/

theorem cancelOutstanding_spec (peers : OrdMap Nat Peer) (exceptPid index begin length : Nat) :
    Trims peers (cancelOutstanding peers exceptPid index begin length) ∧
      ∀ pid p c, Holds peers pid p c → (p, c * chunkSize) ≠ (index, begin) →
        Holds (cancelOutstanding peers exceptPid index begin length) pid p c := by
  refine ⟨Trims.mapVal peers (fun pid p => ?_), fun pid p c hh hne => holds_mapVal hh (fun w hm => ?_)⟩
  · split
    · exact List.Subperm.refl _
    split
    · exact List.Subperm.refl _
    · rename_i slot hslot
      obtain ⟨o, ho, _⟩ := findIdx?_eq_some_mem hslot
      exact swapRemove_subperm ho
  · split
    · exact hm
    split
    · exact hm
    · rename_i slot hslot
      obtain ⟨o, ho, hmatch⟩ := findIdx?_eq_some_mem hslot
      simp only [Bool.and_eq_true, beq_iff_eq] at hmatch
      refine mem_chunk_swapRemove ho (fun he => hne ?_) hm
      rw [he, Request.chunk, hmatch.1.1, hmatch.1.2]

/-- Putting data into an assembly leaves the trackers alone, and takes off the lists at most requests for that chunk. -/
theorem assemble_spec (s : Scheduler l) (vpi : ValidPieceIndex l) (pid ip begin : Nat) (data : List UInt8) :
    ∃ peers asm next acc, s.assemble vpi pid ip begin data =
        { s with peers := peers, pieceAssemblies := asm, nextAssembly := next, accepted := acc } ∧
      Trims s.peers peers ∧
      ∀ pid' p c, Holds s.peers pid' p c → (p, c * chunkSize) ≠ (vpi.val, begin) → Holds peers pid' p c := by
  have hnext : ∃ n, (if s.pieceAssemblies.contains vpi.val then s else { s with nextAssembly := s.nextAssembly + 1 }) =
      { s with nextAssembly := n } := by
    split
    · exact ⟨s.nextAssembly, rfl⟩
    · exact ⟨_, rfl⟩
  obtain ⟨n, hn⟩ := hnext
  unfold assemble
  simp only [hn]
  split
  · cases hend : s.chunkTracker.endgame with
    | true =>
      obtain ⟨ht, hk⟩ := cancelOutstanding_spec s.peers pid vpi.val begin data.length
      exact ⟨_, _, _, _, rfl, ht, hk⟩
    | false => exact ⟨_, _, _, _, rfl, Trims.refl _, fun _ _ _ hh _ => hh⟩
  · exact ⟨_, _, _, _, rfl, Trims.refl _, fun _ _ _ hh _ => hh⟩

theorem Sound.finishPiece {s : Scheduler l} (h : s.Sound) (vpi : ValidPieceIndex l) : (s.finishPiece vpi).Sound := by
  unfold Scheduler.finishPiece
  split
  · exact h
  split
  · exact h
  split
  · refine h.of_restart vpi (Trims.refl _) (fun _ _ _ hh _ => hh) (h.indexed.resetPiece vpi)
      (ChunkTracker.statesOf_resetPiece _ vpi) ?_ ?_ ?_ (fun _ _ hm => hm)
    · intro q _
      simp
    · intro q hq
      simp [Function.update_of_ne hq]
    · simp
  · exact h.of_eq (Trims.refl _) (fun _ _ _ hh => hh) rfl rfl rfl rfl

/-- Receiving a chunk: it is no longer asked of anyone, and no other chunk changes. -/
theorem Sound.of_received {s s' : Scheduler l} (h : s.Sound) {vpi : ValidPieceIndex l}
    (hloc : s.pieceTracker.haveLocal vpi = false) (ht : Trims s.peers s'.peers)
    (hk : ∀ pid p c, Holds s.peers pid p c → (p, c * chunkSize) ≠ (vpi.val, i * chunkSize) → Holds s'.peers pid p c)
    (hi : s'.chunkTracker.Indexed False)
    (hs : ∀ q, s'.chunkTracker.statesOf q =
      if q = vpi then (s.chunkTracker.statesOf vpi).set i .received else s.chunkTracker.statesOf q)
    (hp : s'.pieceTracker = s.pieceTracker) (hw : s'.webseedInflight = s.webseedInflight) : s'.Sound := by
  refine h.of_trim ht ⟨hi, fun q hql hqf hqw hm => ?_, fun q hql p since hm => ?_⟩ (fun q c p since hst => ?_)
  · rw [hp] at hql hqf
    rw [hw] at hqw
    refine h.visible q hql hqf hqw ?_
    rw [hs q] at hm
    split at hm
    · rename_i hq
      subst hq
      rcases List.mem_or_eq_of_mem_set hm with hm | hm
      · exact hm
      · cases hm
    · exact hm
  · rw [hp] at hql
    rw [hs q] at hm
    split at hm
    · rename_i hq
      subst hq
      rw [hloc] at hql
      cases hql
    · exact h.settled q hql p since hm
  · rw [hs q] at hst
    split at hst
    · rename_i hq
      subst hq
      rw [List.getElem?_set] at hst
      split at hst
      · split at hst
        · cases hst
        · cases hst
      · rename_i hne
        refine hk p q.val c (h.owned q c p since hst) (fun he => hne ?_)
        simp only [Prod.mk.injEq, true_and] at he
        exact (Nat.eq_of_mul_eq_mul_right (by decide) he).symm
    · rename_i hq
      refine hk p q.val c (h.owned q c p since hst) (fun he => hq ?_)
      simp only [Prod.mk.injEq] at he
      exact Fin.ext he.1

/-- What a piece message does: it changes no list, or it answers a request, which is then off the list; the data goes into an
assembly unless the piece is local. -/
theorem receivePiece_cases {s : Scheduler l} (h : s.Sound) (pid index begin : Nat) (data : List UInt8) (maxOutstanding : Nat) :
    s.receivePiece pid index begin data maxOutstanding = s ∨
      (∃ peer peer', s.peers.get? pid = some peer ∧ peer'.outstanding = peer.outstanding ∧
        s.receivePiece pid index begin data maxOutstanding = { s with peers := s.peers.insert pid peer' }) ∨
      ∃ peer peer' j vpi i, s.peers.get? pid = some peer ∧ i < l.chunkCount vpi ∧
        peer.outstanding[j]? = some (vpi.val, i * chunkSize, data.length) ∧
        data.length = min (l.pieceLengthOf vpi - i * chunkSize) chunkSize ∧
        peer'.outstanding = swapRemove peer.outstanding j ∧
        ((s.pieceTracker.haveLocal vpi = true ∧
            s.receivePiece pid index begin data maxOutstanding = { s with peers := s.peers.insert pid peer' }) ∨
          (s.pieceTracker.haveLocal vpi = false ∧
            s.receivePiece pid index begin data maxOutstanding =
              ({ s with peers := s.peers.insert pid peer' } : Scheduler l).deliver vpi pid peer.ip (i * chunkSize) data)) := by
  unfold Scheduler.receivePiece
  split
  · exact Or.inl rfl
  rename_i peer hg
  split
  · exact Or.inl rfl
  rename_i vpi hv
  have hval := validatePiece_ok hv
  split
  · simp only
    split
    · exact Or.inr (Or.inl ⟨peer,
        { peer with
          canceledRequests := (peer.canceledRequests.remove (index, begin, min data.length (2 ^ 32 - 1))).1
          snubbing := false },
        hg, rfl, rfl⟩)
    · exact Or.inl rfl
  rename_i j hj
  obtain ⟨r, hr, hmatch⟩ := findIdx?_eq_some_mem hj
  simp only [Bool.and_eq_true, beq_iff_eq] at hmatch
  obtain ⟨q, i, hi, hreq⟩ := h.listed pid peer hg r (List.mem_of_getElem? hr)
  obtain rfl : q = vpi := Fin.ext (by rw [hval, ← hmatch.1.1, hreq])
  obtain rfl : begin = i * chunkSize := by rw [← hmatch.1.2, hreq]
  have hlen : data.length = min (l.pieceLengthOf q - i * chunkSize) chunkSize := by rw [← hmatch.2, hreq]
  split
  · exact Or.inl rfl
  refine Or.inr (Or.inr ⟨peer,
    { peer with
      outstanding := swapRemove peer.outstanding j
      snubbing := false
      consecutiveRejects := 0
      chokeRejected := ∅
      maxOutstanding := maxOutstanding },
    j, q, i, hg, hi, by rw [hr, hreq, hlen], hlen, rfl, ?_⟩)
  simp only
  split
  · rename_i hloc
    exact Or.inl ⟨hloc, rfl⟩
  · rename_i hloc
    exact Or.inr ⟨Bool.eq_false_iff.mpr hloc, rfl⟩

/-- Taking a request off a list keeps the requests for other chunks. -/
theorem holds_of_swapRemove {j : Nat}
    (hg : peers.get? pid = some peer) (hr : peer.outstanding[j]? = some r) (ho : peer'.outstanding = swapRemove peer.outstanding j)
    {pid' : Nat} (hh : Holds peers pid' p c) (hne : (p, c * chunkSize) ≠ r.chunk) :
    Holds (peers.insert pid peer') pid' p c := by
  refine holds_insert hh (fun hp => ?_)
  obtain ⟨w, hw, hm⟩ := hh
  rw [hp, hg] at hw
  cases hw
  rw [ho]
  exact mem_chunk_swapRemove hr hne hm

theorem Sound.receivePiece {s : Scheduler l} (h : s.Sound) (pid index begin : Nat) (data : List UInt8) (maxOutstanding : Nat) :
    (s.receivePiece pid index begin data maxOutstanding).Sound := by
  rcases receivePiece_cases h pid index begin data maxOutstanding with
    heq | ⟨peer, peer', hg, ho, heq⟩ | ⟨peer, peer', j, vpi, i, hg, hi, hr, _, ho, hcase⟩
  · rw [heq]
    exact h
  · rw [heq]
    exact h.insert_peer hg ho
  have htrim : Trims s.peers (s.peers.insert pid peer') := Trims.insert hg (by rw [ho]; exact swapRemove_subperm hr)
  rcases hcase with ⟨hloc, heq⟩ | ⟨hloc, heq⟩
  · rw [heq]
    refine h.of_trim htrim (h.toMarked.of_eq rfl rfl rfl rfl) (fun q c p since hst => ?_)
    refine holds_of_swapRemove hg hr ho (h.owned q c p since hst) (fun he => ?_)
    simp only [Request.chunk, Prod.mk.injEq] at he
    obtain rfl : q = vpi := Fin.ext he.1
    exact h.settled q hloc p since (List.mem_of_getElem? hst)
  · rw [heq]
    obtain ⟨peers, asm, next, acc, hasm, ht, hk⟩ :=
      assemble_spec { s with peers := s.peers.insert pid peer' } vpi pid peer.ip (i * chunkSize) data
    unfold deliver
    simp only [hasm, Nat.mul_div_cancel i (show 0 < chunkSize by decide)]
    have hsound : ({ s with
        peers := peers, pieceAssemblies := asm, nextAssembly := next, accepted := acc,
        chunkTracker := (s.chunkTracker.markReceived
          { pieceIndex := vpi, chunkIndex := i, size := data.length, offset := i * chunkSize }).1 } : Scheduler l).Sound := by
      refine h.of_received hloc (htrim.trans ht) (fun pid' p c hh hne => ?_)
        (h.indexed.markReceived _ (fun hf => hf.elim)) (ChunkTracker.statesOf_markReceived h.indexed _ hi) rfl rfl
      exact hk pid' p c (holds_of_swapRemove hg hr ho hh hne) hne
    split
    · exact hsound.finishPiece vpi
    · exact hsound

/-! ## Selections and web seeds -/

/-- Forgetting pieces that have a missing chunk and dropping their assemblies. -/
theorem foldl_forget_spec (ps : List Nat) {s : Scheduler l} (h : s.Sound)
    (hps : ∀ q : ValidPieceIndex l, q.val ∈ ps → .missing ∈ s.chunkTracker.statesOf q) :
    (ps.foldl (fun s idx =>
      { s with
        chunkTracker := match l.validatePiece idx with
          | .error _ => s.chunkTracker
          | .ok vpi => s.chunkTracker.forgetPiece vpi
        pieceAssemblies := s.pieceAssemblies.erase idx }) s).Sound := by
  induction ps generalizing s with
  | nil => exact h
  | cons p ps ih =>
    rw [List.foldl_cons]
    cases hv : l.validatePiece p with
    | error e =>
      refine ih (h.of_eq (Trims.refl _) (fun _ _ _ hh => hh) rfl rfl rfl rfl) (fun q hq => ?_)
      exact hps q (List.mem_cons_of_mem _ hq)
    | ok vpi =>
      have hval := validatePiece_ok hv
      have hst := ChunkTracker.statesOf_forgetPiece s.chunkTracker vpi
      have hinit : .missing ∈ s.chunkTracker.initialStates vpi := ChunkTracker.missing_mem_new s.chunkTracker vpi
      refine ih ?_ (fun q hq => ?_)
      · refine h.of_trim (Trims.refl _) ⟨h.indexed.forgetPiece vpi, fun q hql hqf hqw => ?_, fun q hql p' since hm => ?_⟩
          (fun q c p' since hreq => ?_)
        · simp only
          rw [hst q]
          split
          · rename_i hq
            subst hq
            exact absurd (hps q (by rw [hval]; exact List.mem_cons_self ..)) (h.visible q hql hqf hqw)
          · exact h.visible q hql hqf hqw
        · simp only at hm
          rw [hst q] at hm
          split at hm
          · exact ChunkTracker.not_requested_mem_initialStates _ _ p' since hm
          · exact h.settled q hql p' since hm
        · simp only at hreq
          rw [hst q] at hreq
          split at hreq
          · exact absurd (List.mem_of_getElem? hreq) (ChunkTracker.not_requested_mem_initialStates _ _ p' since)
          · exact h.owned q c p' since hreq
      · simp only
        rw [hst q]
        split
        · rename_i hqv
          exact hinit
        · exact hps q (List.mem_cons_of_mem _ hq)

/-- A piece listed as partial has a missing chunk. -/
theorem missing_of_partial {s : Scheduler l} (h : s.Marked) {q : ValidPieceIndex l} (hq : q.val ∈ s.chunkTracker.partialPieces) :
    .missing ∈ s.chunkTracker.statesOf q := by
  unfold ChunkTracker.partialPieces at hq
  rw [Finset.mem_sort] at hq
  obtain ⟨c, hc, hm⟩ := h.indexed.partials_sound q.val hq
  rw [ChunkTracker.statesOf_eq hc]
  exact hm

theorem Sound.select {s : Scheduler l} (h : s.Sound) (wanted : List Bool) :
    (dropUnwantedPartialPieces { s with pieceTracker := s.pieceTracker.setWanted wanted }).Sound := by
  obtain ⟨hl, hf⟩ := PieceTracker.flags_setWanted s.pieceTracker wanted
  have hs : ({ s with pieceTracker := s.pieceTracker.setWanted wanted } : Scheduler l).Sound :=
    h.of_eq (Trims.refl _) (fun _ _ _ hh => hh) rfl hl hf rfl
  unfold dropUnwantedPartialPieces
  exact foldl_forget_spec _ hs (fun q hq => missing_of_partial hs.toMarked (List.mem_filter.mp hq).1)

theorem Sound.startWebseed {s : Scheduler l} (h : s.Sound) (pieceIndex : Nat) : (s.startWebseed pieceIndex).Sound := by
  unfold Scheduler.startWebseed
  split
  · exact h
  · rename_i vpi hv
    have hval := validatePiece_ok hv
    refine h.of_trim (Trims.refl _) ⟨h.indexed, fun q hql hqf hqw => ?_, fun q hql => ?_⟩ h.owned
    · simp only [PieceTracker.haveLocal_markInFlight, PieceTracker.inFlight_markInFlight] at hql hqf
      have hne : q ≠ vpi := by
        rintro rfl
        apply hqw
        simp only
        rw [hval]
        split
        · rename_i hmem
          exact hmem
        · exact List.mem_cons_self ..
      rw [Function.update_of_ne hne] at hqf
      refine h.visible q hql hqf (fun hmem => hqw ?_)
      simp only
      split
      · exact hmem
      · exact List.mem_cons_of_mem _ hmem
    · simp only [PieceTracker.haveLocal_markInFlight] at hql
      exact h.settled q hql

theorem Sound.scheduleWebseedWorkers {s : Scheduler l} (h : s.Sound) (freeWorkers perJob : Nat) (servable : List Nat → Bool) :
    (s.scheduleWebseedWorkers freeWorkers perJob servable).Sound := by
  have hbatch : ∀ (batch : List Nat) (s : Scheduler l), s.Sound → (batch.foldl Scheduler.startWebseed s).Sound := by
    intro batch
    induction batch with
    | nil => exact fun s hs => hs
    | cons p rest ih => exact fun s hs => ih _ (hs.startWebseed p)
  unfold Scheduler.scheduleWebseedWorkers
  simp only
  generalize (Webseed.contiguousWebseedBatches _ perJob).take freeWorkers = batches
  induction batches generalizing s with
  | nil => exact h
  | cons b rest ih => exact ih (hbatch _ s h)

theorem Sound.releaseWebseedInflight {s : Scheduler l} (h : s.Sound) : s.releaseWebseedInflight.Sound := by
  obtain ⟨hl, hf⟩ := clearInFlightAll_spec s.webseedInflight s.pieceTracker
  unfold Scheduler.releaseWebseedInflight
  refine h.of_trim (Trims.refl _) ⟨h.indexed, fun q hql hqf _ => ?_, fun q hql => ?_⟩ h.owned
  · simp only at hql hqf
    rw [hl] at hql
    rw [hf q, Bool.and_eq_true, decide_eq_true_eq] at hqf
    exact h.visible q hql hqf.1 hqf.2
  · simp only at hql
    rw [hl] at hql
    exact h.settled q hql

theorem Sound.shuffleWebseeds {s : Scheduler l} (h : s.Sound) {order : List Nat} (ho : order.Perm s.webseedInflight) :
    ({ s with webseedInflight := order } : Scheduler l).Sound :=
  h.of_trim (Trims.refl _) ⟨h.indexed, fun q hql hqf hqw => h.visible q hql hqf (fun hmem => hqw (ho.mem_iff.mpr hmem)), h.settled⟩
    h.owned

end Scheduler

end Risuko
