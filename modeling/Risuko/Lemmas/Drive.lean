import Risuko.Lemmas.Scheduler

/-!
# Driving a peer

The loop of `drive_peer_with` keeps the scheduler sound at every turn: a chunk that is handed out goes on the peer's list, and a
request that could not be sent gives the chunk its state back. `Drive.Keeps` is the invariant of the loop, stated for the
scheduler with the loop's peer and trackers put back in (`Drive.on`).
-/

namespace Risuko

namespace Drive

variable {l : Lengths}
variable {cfg : DriveParams} {pid i now : Nat}

/-- The scheduler as it is when the loop stops here. -/
def on (s : Scheduler l) (pid : Nat) (d : Drive l) : Scheduler l :=
  { s with peers := s.peers.insert pid d.peer, pieceTracker := d.pieceTracker, chunkTracker := d.chunkTracker }

/-! ## Picking a piece -/

/-- A piece that passes the tests of the inner loop is not local, and the peer has chunks of it to offer. -/
theorem accept_spec {d : Drive l} {t : PieceTracker l} {index : Nat} {p : ValidPieceIndex l}
    (h : d.accept cfg t index = some p) : t.haveLocal p = false ∧ p.val ∉ d.exhausted := by
  unfold accept at h
  split at h
  · cases h
  rename_i hno
  simp only [Bool.or_eq_true, decide_eq_true_eq, not_or] at hno
  split at h
  · cases h
  rename_i piece hv
  have hval := Scheduler.validatePiece_ok hv
  split at h
  · rename_i hpick
    cases h
    refine ⟨?_, by rw [hval]; exact hno.1.1⟩
    simp only [PieceTracker.isRequestable, PieceTracker.isUseful, Bool.or_eq_true, Bool.and_eq_true, Bool.not_eq_true'] at hpick
    rcases hpick with hpick | hpick
    · exact hpick.1.2
    · exact hpick.2.2
  · cases h

/-- A piece that is picked from a list is one that we lack and have not exhausted. -/
theorem pickList_spec {d : Drive l} {list rest : List Nat} {p : ValidPieceIndex l}
    (h : d.pickList cfg list = some (p, rest)) : d.pieceTracker.haveLocal p = false ∧ p.val ∉ d.exhausted := by
  induction list with
  | nil => cases h
  | cons index list ih =>
    unfold pickList at h
    split at h
    · rename_i piece hp
      cases h
      exact accept_spec hp
    · exact ih h

/-- Looking for the rarest piece changes no flag. -/
theorem pickRarest_spec (cfg : DriveParams) (d : Drive l) (fuel : Nat) (t : PieceTracker l) (cursor : Nat) :
    (d.pickRarest cfg fuel t cursor).1.haveLocal = t.haveLocal ∧ (d.pickRarest cfg fuel t cursor).1.inFlight = t.inFlight ∧
      ∀ p, (d.pickRarest cfg fuel t cursor).2.1 = some p → t.haveLocal p = false ∧ p.val ∉ d.exhausted := by
  induction fuel generalizing t cursor with
  | zero => exact ⟨rfl, rfl, fun p hp => by cases hp⟩
  | succ fuel ih =>
    have hl := PieceTracker.haveLocal_nextRequestable t d.peer.bitfield cursor
    have hf := PieceTracker.inFlight_nextRequestable t d.peer.bitfield cursor
    unfold pickRarest
    split
    · rename_i t' cursor' heq
      rw [heq] at hl hf
      exact ⟨hl, hf, fun p hp => by cases hp⟩
    · rename_i t' piece cursor' heq
      rw [heq] at hl hf
      simp only at hl hf
      split
      · rename_i p hp
        refine ⟨hl, hf, fun q hq => ?_⟩
        cases hq
        rw [← hl]
        exact accept_spec hp
      · obtain ⟨hl', hf', hsome⟩ := ih t' cursor'
        refine ⟨hl'.trans hl, hf'.trans hf, fun p hp => ?_⟩
        rw [← hl]
        exact hsome p hp

/-- What picking a piece may change, and what a picked piece is like. -/
def Picks (d : Drive l) (r : Drive l × Option (ValidPieceIndex l)) : Prop :=
  (∃ t stage stageList cursor,
      r.1 = { d with pieceTracker := t, stage := stage, stageList := stageList, cursor := cursor } ∧
      t.haveLocal = d.pieceTracker.haveLocal ∧ t.inFlight = d.pieceTracker.inFlight) ∧
    ∀ p, r.2 = some p → d.pieceTracker.haveLocal p = false ∧ p.val ∉ d.exhausted

theorem picks_endgame (cfg : DriveParams) (d : Drive l) : d.Picks (d.pickEndgame cfg) := by
  unfold pickEndgame
  split
  · rename_i piece rest hp
    exact ⟨⟨_, _, _, _, rfl, rfl, rfl⟩, fun p he => by cases he; exact pickList_spec hp⟩
  · exact ⟨⟨_, _, _, _, rfl, rfl, rfl⟩, fun p he => by cases he⟩

theorem picks_byRarity (cfg : DriveParams) (d : Drive l) : d.Picks (d.pickByRarity cfg) := by
  obtain ⟨hl, hf, hsome⟩ := pickRarest_spec cfg d (l.totalPieces + 1) d.pieceTracker d.cursor
  unfold pickByRarity
  split
  · rename_i t piece cursor heq
    rw [heq] at hl hf hsome
    exact ⟨⟨t, _, _, _, rfl, hl, hf⟩, hsome⟩
  · rename_i t cursor heq
    rw [heq] at hl hf
    simp only
    split
    · obtain ⟨⟨t', stage, list, cursor', heq', hl', hf'⟩, hsome'⟩ := picks_endgame cfg
        { d with
          pieceTracker := t
          cursor := cursor
          stage := .endgame
          stageList := (d.stageList ++ d.chunkTracker.contestedPieces ++ cfg.webseedInflight).rotate
            (cfg.pid % (d.stageList ++ d.chunkTracker.contestedPieces ++ cfg.webseedInflight).length) }
      refine ⟨⟨t', stage, list, cursor', heq', hl'.trans hl, hf'.trans hf⟩, fun p hp => ?_⟩
      obtain ⟨hloc, hex⟩ := hsome' p hp
      exact ⟨(congrFun hl p).symm.trans hloc, hex⟩
    · exact ⟨⟨t, _, _, _, rfl, hl, hf⟩, fun p he => by cases he⟩

theorem picks_partials (cfg : DriveParams) (d : Drive l) : d.Picks (d.pickPartials cfg) := by
  unfold pickPartials
  split
  · rename_i piece rest hp
    exact ⟨⟨_, _, _, _, rfl, rfl, rfl⟩, fun p he => by cases he; exact pickList_spec hp⟩
  · exact picks_byRarity cfg { d with stage := .rarest, stageList := [] }

theorem picks_preferred (cfg : DriveParams) (d : Drive l) : d.Picks (d.pickPreferred cfg) := by
  unfold pickPreferred
  split
  · rename_i piece rest hp
    exact ⟨⟨_, _, _, _, rfl, rfl, rfl⟩, fun p he => by cases he; exact pickList_spec hp⟩
  · split
    · exact ⟨⟨_, _, _, _, rfl, rfl, rfl⟩, fun p he => by cases he⟩
    · exact picks_partials cfg { d with stage := .partials, stageList := d.chunkTracker.partialPieces }

theorem picks_pick (cfg : DriveParams) (d : Drive l) : d.Picks (d.pick cfg) := by
  unfold pick
  split
  · exact picks_preferred cfg d
  · exact picks_partials cfg d
  · exact picks_byRarity cfg d
  · exact picks_endgame cfg d
  · exact ⟨⟨_, _, _, _, rfl, rfl, rfl⟩, fun p he => by cases he⟩

/-! ## The loop -/

/-- The invariant of the loop, for the scheduler and the number of slots it started from. -/
structure Keeps (s : Scheduler l) (pid limit : Nat) (d : Drive l) : Prop where
  sound : (d.on s pid).Sound
  room : (s.peers.insert pid d.peer).sumOf (fun _ p => p.outstanding.length) + d.requestSlots ≤ torrentRequestBudget
  slots : d.requestSlots ≤ limit
  current : ∀ p, d.current = some p → d.pieceTracker.haveLocal p = false
  haveLocal : d.pieceTracker.haveLocal = s.pieceTracker.haveLocal
  padding : d.chunkTracker.padding = s.chunkTracker.padding
  received : ∀ (q : ValidPieceIndex l) (c : Nat),
    (d.chunkTracker.statesOf q)[c]? = some .received ↔ (s.chunkTracker.statesOf q)[c]? = some .received

variable {limit : Nat}

theorem outstanding_sum_insert (peers : OrdMap Nat Peer) (pid : Nat) (peer : Peer) :
    (peers.insert pid peer).sumOf (fun _ p => p.outstanding.length) =
      peer.outstanding.length + (peers.erase pid).sumOf (fun _ p => p.outstanding.length) :=
  OrdMap.sumOf_insert _ _ _ _

/-- Picking keeps the invariant. -/
theorem Keeps.picks {s : Scheduler l} {d : Drive l} (h : Keeps s pid limit d) {r : Drive l × Option (ValidPieceIndex l)}
    (hr : d.Picks r) : Keeps s pid limit r.1 := by
  obtain ⟨⟨t, stage, list, cursor, heq, hl, hf⟩, _⟩ := hr
  rw [heq]
  refine ⟨?_, h.room, h.slots, fun p hp => ?_, hl.trans h.haveLocal, h.padding, h.received⟩
  · exact h.sound.of_eq (Trims.refl _) (fun _ _ _ hh => hh) rfl hl hf rfl
  · simp only [hl]
    exact h.current p hp

/-- Marking a piece with no missing chunk as in flight keeps the marks right. -/
theorem sound_markInFlight {s : Scheduler l} (h : s.Sound) {piece : ValidPieceIndex l}
    (hno : s.chunkTracker.hasMissing piece = false) :
    ({ s with pieceTracker := s.pieceTracker.markInFlight piece } : Scheduler l).Sound := by
  refine h.of_trim (Trims.refl _) ⟨h.indexed, fun q hql hqf hqw hm => ?_, fun q hql => ?_⟩ h.owned
  · simp only [PieceTracker.haveLocal_markInFlight, PieceTracker.inFlight_markInFlight] at hql hqf
    by_cases hq : q = piece
    · subst hq
      rw [(ChunkTracker.hasMissing_iff h.indexed q).mpr hm] at hno
      cases hno
    · rw [Function.update_of_ne hq] at hqf
      exact h.visible q hql hqf hqw hm
  · simp only [PieceTracker.haveLocal_markInFlight] at hql
    exact h.settled q hql

theorem sound_clearInFlight {s : Scheduler l} (h : s.Sound) (piece : ValidPieceIndex l) :
    ({ s with pieceTracker := s.pieceTracker.clearInFlight piece } : Scheduler l).Sound := by
  refine h.of_trim (Trims.refl _) ⟨h.indexed, fun q hql hqf hqw => ?_, fun q hql => ?_⟩ h.owned
  · simp only [PieceTracker.haveLocal_clearInFlight, PieceTracker.inFlight_clearInFlight] at hql hqf
    by_cases hq : q = piece
    · subst hq
      simp at hqf
    · rw [Function.update_of_ne hq] at hqf
      exact h.visible q hql hqf hqw
  · simp only [PieceTracker.haveLocal_clearInFlight] at hql
    exact h.settled q hql

/-- A chunk tracker with the same states changes nothing. -/
theorem sound_same_states {s : Scheduler l} (h : s.Sound) {ct : ChunkTracker l} (hi : ct.Indexed False)
    (hs : ∀ q, ct.statesOf q = s.chunkTracker.statesOf q) : ({ s with chunkTracker := ct } : Scheduler l).Sound := by
  refine h.of_trim (Trims.refl _) ⟨hi, fun q hql hqf hqw => ?_, fun q hql p since => ?_⟩ (fun q c p since hst => ?_)
  · simp only [hs]
    exact h.visible q hql hqf hqw
  · simp only [hs]
    exact h.settled q hql p since
  · simp only [hs] at hst
    exact h.owned q c p since hst

/-- The arm that finds no chunk. -/
theorem Keeps.pieceExhausted {s : Scheduler l} {d : Drive l} (h : Keeps s pid limit d) {ct : ChunkTracker l}
    (hi : ct.Indexed False) (hs : ∀ q, ct.statesOf q = d.chunkTracker.statesOf q) (hp : ct.padding = d.chunkTracker.padding)
    (piece : ValidPieceIndex l) : Keeps s pid limit ({ d with chunkTracker := ct }.pieceExhausted piece) := by
  have hsound : (({ d with chunkTracker := ct } : Drive l).on s pid).Sound := sound_same_states h.sound hi hs
  have hrec : ∀ (q : ValidPieceIndex l) (c : Nat),
      (ct.statesOf q)[c]? = some .received ↔ (s.chunkTracker.statesOf q)[c]? = some .received := by
    intro q c
    rw [hs q]
    exact h.received q c
  unfold Drive.pieceExhausted
  simp only
  split
  · rename_i hno
    have hno' : ct.hasMissing piece = false := by simpa using hno
    refine ⟨sound_markInFlight hsound hno', h.room, h.slots, fun p hpc => (by cases hpc), ?_, hp.trans h.padding, hrec⟩
    simp only [PieceTracker.haveLocal_markInFlight]
    exact h.haveLocal
  · exact ⟨hsound, h.room, h.slots, fun p hpc => (by cases hpc), h.haveLocal, hp.trans h.padding, hrec⟩

/-- The effect of handing out a chunk, on the states. -/
theorem received_set_iff {xs : List ChunkState} {peer c : Nat} (hi : xs[i]? ≠ some .received) :
    (xs.set i (.requested peer now))[c]? = some .received ↔ xs[c]? = some .received := by
  rw [List.getElem?_set]
  split
  · rename_i hic
    subst hic
    constructor
    · intro h
      split at h
      · cases h
      · cases h
    · exact fun h => absurd h hi
  · rfl

theorem not_received_of_scannable {xs : List ChunkState} {peer : Nat} {asked : Nat → Bool}
    (h : ChunkTracker.Scannable xs peer asked i) : xs[i]? ≠ some .received := by
  rcases h.2 with h | ⟨q, since, _, h⟩ <;> simp [h]

/-- Handing out a chunk and putting the request on the peer's list. -/
theorem sound_request {s : Scheduler l} {d : Drive l} (h : Keeps s pid limit d)
    {piece : ValidPieceIndex l} (hloc : d.pieceTracker.haveLocal piece = false) (hi : i < l.chunkCount piece)
    {ct : ChunkTracker l} (hidx : ct.Indexed False) (hscan : ChunkTracker.Scannable (d.chunkTracker.statesOf piece) pid (d.asked cfg piece) i)
    (hst : ∀ q, ct.statesOf q =
      if q = piece then (d.chunkTracker.statesOf piece).set i (.requested pid now) else d.chunkTracker.statesOf q)
    (hslots : 0 < d.requestSlots) {peer' : Peer}
    (ho : peer'.outstanding = d.peer.outstanding ++
      [(piece.val, i * chunkSize, min (l.pieceLengthOf piece - i * chunkSize) chunkSize)]) :
    ({ s with peers := s.peers.insert pid peer', pieceTracker := d.pieceTracker, chunkTracker := ct } : Scheduler l).Sound := by
  have hself : (d.on s pid).peers.get? pid = some d.peer := OrdMap.get?_insert_self _ _ _
  have hother : ∀ q, q ≠ pid → (s.peers.insert pid peer').get? q = (d.on s pid).peers.get? q := by
    intro q hq
    rw [OrdMap.get?_insert_of_ne _ _ hq]
    exact (OrdMap.get?_insert_of_ne _ _ hq).symm
  have hnew : (piece.val, i * chunkSize) ∉ d.peer.outstanding.map Request.chunk := by
    intro hmem
    obtain ⟨r, hr, he⟩ := List.mem_map.mp hmem
    simp only [Request.chunk, Prod.mk.injEq] at he
    have hask := hscan.1
    simp only [asked, Bool.or_eq_false_iff, List.any_eq_false] at hask
    exact hask.2 r hr (by simp [he.1, he.2])
  -- requests that were held before are still held
  have hkeep : ∀ pid' p c, Holds (d.on s pid).peers pid' p c → Holds (s.peers.insert pid peer') pid' p c := by
    rintro pid' p c ⟨w, hw, hm⟩
    by_cases hp : pid' = pid
    · rw [hp, hself] at hw
      cases hw
      refine ⟨peer', by rw [hp, OrdMap.get?_insert_self], ?_⟩
      rw [ho, List.map_append]
      exact List.mem_append_left _ hm
    · exact ⟨w, by rw [hother pid' hp]; exact hw, hm⟩
  refine ⟨⟨hidx, fun q hql hqf hqw hm => ?_, fun q hql p since hm => ?_⟩, fun q w hw r hr => ?_, fun q w hw => ?_, ?_,
    fun q c p since hreq => ?_⟩
  · refine h.sound.visible q hql hqf hqw ?_
    simp only at hm
    rw [hst q] at hm
    split at hm
    · rename_i hq
      subst hq
      rcases List.mem_or_eq_of_mem_set hm with hm | hm
      · exact hm
      · cases hm
    · exact hm
  · simp only at hm hql
    rw [hst q] at hm
    split at hm
    · rename_i hq
      rw [hq, hloc] at hql
      cases hql
    · exact h.sound.settled q hql p since hm
  · by_cases hq : q = pid
    · simp only [hq, OrdMap.get?_insert_self] at hw
      cases hw
      rw [ho] at hr
      rcases List.mem_append.mp hr with hr | hr
      · exact h.sound.listed pid d.peer hself r hr
      · exact ⟨piece, i, hi, List.mem_singleton.mp hr⟩
    · simp only [hother q hq] at hw
      exact h.sound.listed q w hw r hr
  · by_cases hq : q = pid
    · simp only [hq, OrdMap.get?_insert_self] at hw
      cases hw
      rw [ho, List.map_append]
      refine List.nodup_append.mpr ⟨h.sound.distinct pid d.peer hself, List.nodup_singleton _, fun a ha b hb => ?_⟩
      rintro rfl
      rw [List.map_singleton, List.mem_singleton] at hb
      rw [hb] at ha
      exact hnew ha
    · simp only [hother q hq] at hw
      exact h.sound.distinct q w hw
  · have hroom := h.room
    simp only
    rw [outstanding_sum_insert] at hroom ⊢
    rw [ho, List.length_append, List.length_singleton]
    omega
  · simp only at hreq
    rw [hst q] at hreq
    split at hreq
    · rename_i hq
      subst hq
      rw [List.getElem?_set] at hreq
      split at hreq
      · rename_i hic
        subst hic
        split at hreq
        · cases hreq
          refine ⟨peer', OrdMap.get?_insert_self _ _ _, ?_⟩
          rw [ho, List.map_append]
          exact List.mem_append_right _ (List.mem_singleton.mpr rfl)
        · cases hreq
      · exact hkeep _ _ _ (h.sound.owned q c p since hreq)
    · exact hkeep _ _ _ (h.sound.owned q c p since hreq)

/-- The arm that sent a request. -/
theorem Keeps.requestSent {s : Scheduler l} {d : Drive l} (h : Keeps s pid limit d)
    {piece : ValidPieceIndex l} (hloc : d.pieceTracker.haveLocal piece = false) {info : ChunkInfo l}
    (hinfo : l.chunkInfo piece i = some info) {ct : ChunkTracker l} (hidx : ct.Indexed False)
    (hp : ct.padding = d.chunkTracker.padding)
    (hscan : ChunkTracker.Scannable (d.chunkTracker.statesOf piece) pid (d.asked cfg piece) i)
    (hst : ∀ q, ct.statesOf q =
      if q = piece then (d.chunkTracker.statesOf piece).set i (.requested pid now) else d.chunkTracker.statesOf q)
    (hslots : 0 < d.requestSlots) : Keeps s pid limit ({ d with chunkTracker := ct }.requestSent cfg piece info) := by
  obtain ⟨hi, hpi, _, hoff, hsize⟩ := Lengths.chunkInfo_eq_some hinfo
  let peer' : Peer := { d.peer with
    outstanding := d.peer.outstanding ++ [(info.pieceIndex.val, info.offset, info.size)], lastPiece := some piece.val }
  have hsound : ({ s with peers := s.peers.insert pid peer', pieceTracker := d.pieceTracker, chunkTracker := ct } : Scheduler l).Sound :=
    sound_request h hloc hi hidx hscan hst hslots (by simp only [peer', hpi, hoff, hsize])
  have hroom : (s.peers.insert pid peer').sumOf (fun _ p => p.outstanding.length) + (d.requestSlots - 1) ≤ torrentRequestBudget := by
    have hroom := h.room
    rw [outstanding_sum_insert] at hroom ⊢
    rw [show peer'.outstanding = d.peer.outstanding ++ [_] from rfl, List.length_append, List.length_singleton]
    omega
  have hrec : ∀ (q : ValidPieceIndex l) (c : Nat),
      (ct.statesOf q)[c]? = some .received ↔ (s.chunkTracker.statesOf q)[c]? = some .received := by
    intro q c
    rw [← h.received q c, hst q]
    split
    · rename_i hq
      subst hq
      exact received_set_iff (not_received_of_scannable hscan)
    · rfl
  have hpad := hp.trans h.padding
  have hsl : d.requestSlots - 1 ≤ limit := le_trans (Nat.sub_le _ _) h.slots
  unfold Drive.requestSent
  simp only
  split
  · rename_i hno
    have hno' : ct.hasMissing piece = false := by simpa using hno
    have hmark := sound_markInFlight hsound hno'
    have hl : (d.pieceTracker.markInFlight piece).haveLocal = s.pieceTracker.haveLocal := by
      rw [PieceTracker.haveLocal_markInFlight, h.haveLocal]
    split
    · exact ⟨hmark, hroom, hsl, fun p hpc => (by cases hpc), hl, hpad, hrec⟩
    · refine ⟨hmark, hroom, hsl, fun p hpc => ?_, hl, hpad, hrec⟩
      simp only [Option.some.injEq] at hpc
      subst hpc
      simp only [PieceTracker.haveLocal_markInFlight]
      exact hloc
  · refine ⟨hsound, hroom, hsl, fun p hpc => ?_, h.haveLocal, hpad, hrec⟩
    simp only [Option.some.injEq] at hpc
    subst hpc
    exact hloc

/-- The arm that could not send the request: the chunk has its state back, so all states are as they were. -/
theorem Keeps.requestFailed {s : Scheduler l} {d : Drive l} (h : Keeps s pid limit d) {piece : ValidPieceIndex l}
    {info : ChunkInfo l} {prior : ChunkState} (hinfo : l.chunkInfo piece i = some info) {ct : ChunkTracker l}
    (hidx : ct.Indexed False) (hp : ct.padding = d.chunkTracker.padding)
    (hprior : (d.chunkTracker.statesOf piece)[i]? = some prior)
    (hst : ∀ q, ct.statesOf q =
      if q = piece then (d.chunkTracker.statesOf piece).set i (.requested pid now) else d.chunkTracker.statesOf q) :
    Keeps s pid limit ({ d with chunkTracker := ct }.requestFailed piece ⟨info, prior⟩) := by
  obtain ⟨_, hpi, hci, _, _⟩ := Lengths.chunkInfo_eq_some hinfo
  have hlt : i < (d.chunkTracker.statesOf piece).length := (List.getElem?_eq_some_iff.mp hprior).1
  have hreq : (ct.statesOf piece)[i]? = some (.requested pid now) := by
    rw [hst piece, if_pos rfl, List.getElem?_set_self hlt]
  have hback : ∀ q, (ct.unrequestChunk piece i prior).statesOf q = d.chunkTracker.statesOf q := by
    intro q
    rw [ChunkTracker.statesOf_unrequestChunk hreq, hst piece, if_pos rfl, hst q]
    split
    · rename_i hq
      rw [hq, List.set_set]
      apply List.ext_getElem?
      intro c
      rw [List.getElem?_set]
      split
      · rename_i hic
        subst hic
        exact hprior.symm
      · rfl
    · rfl
  have hidx' := hidx.unrequestChunk piece i prior
  have hsound : (({ d with chunkTracker := ct.unrequestChunk piece i prior } : Drive l).on s pid).Sound :=
    sound_same_states h.sound hidx' hback
  have hrec : ∀ (q : ValidPieceIndex l) (c : Nat), ((ct.unrequestChunk piece i prior).statesOf q)[c]? = some .received ↔
      (s.chunkTracker.statesOf q)[c]? = some .received := by
    intro q c
    rw [hback q]
    exact h.received q c
  have hpad : (ct.unrequestChunk piece i prior).padding = s.chunkTracker.padding := by
    rw [ChunkTracker.padding_unrequestChunk, hp, h.padding]
  unfold Drive.requestFailed
  simp only [hpi, hci]
  split
  · refine ⟨sound_clearInFlight hsound piece, h.room, h.slots, fun p hpc => ?_, ?_, hpad, hrec⟩
    · simp only [PieceTracker.haveLocal_clearInFlight]
      exact h.current p hpc
    · simp only [PieceTracker.haveLocal_clearInFlight]
      exact h.haveLocal
  · exact ⟨hsound, h.room, h.slots, h.current, h.haveLocal, hpad, hrec⟩

/-- The piece the loop goes on with is not local. -/
theorem Keeps.next {s : Scheduler l} {d : Drive l} (h : Keeps s cfg.pid limit d) :
    ∃ d' next, d.next cfg = (d', next) ∧ Keeps s cfg.pid limit d' ∧ d'.requestSlots = d.requestSlots ∧
      ∀ p, next = some p → d'.pieceTracker.haveLocal p = false := by
  unfold Drive.next
  split
  · rename_i piece hc
    exact ⟨d, some piece, rfl, h, rfl, fun p hp => by cases hp; exact h.current piece hc⟩
  · have hpk := picks_pick cfg d
    refine ⟨(d.pick cfg).1, (d.pick cfg).2, rfl, h.picks hpk, ?_, fun p hp => ?_⟩
    · obtain ⟨⟨_, _, _, _, heq, _, _⟩, _⟩ := hpk
      rw [heq]
    · have hloc := (hpk.2 p hp).1
      obtain ⟨⟨_, _, _, _, heq, hl, _⟩, _⟩ := hpk
      rw [heq]
      simp only [hl]
      exact hloc

/-- The loop keeps its invariant. -/
theorem Keeps.loop {s : Scheduler l} (cfg : DriveParams) (fuel : Nat) {d : Drive l} (h : Keeps s cfg.pid limit d) :
    Keeps s cfg.pid limit (Drive.loop cfg fuel d) := by
  induction fuel generalizing d with
  | zero => exact h
  | succ fuel ih =>
    unfold Drive.loop
    split
    · rename_i hcond
      simp only [Bool.and_eq_true, decide_eq_true_eq] at hcond
      obtain ⟨d', next, heq, hk, hslots, hloc⟩ := h.next
      rw [heq]
      cases next with
      | none => exact ⟨hk.sound, hk.room, hk.slots, hk.current, hk.haveLocal, hk.padding, hk.received⟩
      | some piece =>
        simp only
        have hidx := hk.sound.indexed
        rcases ChunkTracker.nextChunkSkipping_spec (t := d'.chunkTracker) hidx piece cfg.pid (d'.asked cfg piece)
            (cfg.requestedAt d'.requestSlots) with
          ⟨ct, hnc, hpad, hst⟩ | ⟨ct, i, info, prior, hnc, hpad, hinfo, _, hscan, hprior, hst⟩
        · have hidx' := ChunkTracker.Indexed.nextChunkSkipping (t := d'.chunkTracker) hidx piece cfg.pid (d'.asked cfg piece)
            (cfg.requestedAt d'.requestSlots) (fun hf => hf.elim)
          rw [hnc] at hidx' ⊢
          exact ih (hk.pieceExhausted hidx' hst hpad piece)
        · have hidx' := ChunkTracker.Indexed.nextChunkSkipping (t := d'.chunkTracker) hidx piece cfg.pid (d'.asked cfg piece)
            (cfg.requestedAt d'.requestSlots) (fun hf => hf.elim)
          rw [hnc] at hidx' ⊢
          simp only
          split
          · exact ih (hk.requestSent (hloc piece rfl) hinfo hidx' hpad hscan hst (by rw [hslots]; exact hcond.2))
          · exact hk.requestFailed hinfo hidx' hpad hprior hst
    · exact h

end Drive

namespace Scheduler

variable {l : Lengths}

/-- What driving a peer leaves alone: the assemblies, the web seeds, the ghosts, which pieces are local, and which chunks are
received. -/
structure Drives (s s' : Scheduler l) : Prop where
  rest : ∃ peers t ct, s' = { s with peers := peers, pieceTracker := t, chunkTracker := ct }
  haveLocal : s'.pieceTracker.haveLocal = s.pieceTracker.haveLocal
  padding : s'.chunkTracker.padding = s.chunkTracker.padding
  received : ∀ (q : ValidPieceIndex l) (c : Nat),
    (s'.chunkTracker.statesOf q)[c]? = some .received ↔ (s.chunkTracker.statesOf q)[c]? = some .received

theorem Drives.refl (s : Scheduler l) : Drives s s := ⟨⟨_, _, _, rfl⟩, rfl, rfl, fun _ _ => Iff.rfl⟩

theorem Drives.trans {a b c : Scheduler l} (hab : Drives a b) (hbc : Drives b c) : Drives a c := by
  refine ⟨?_, hbc.haveLocal.trans hab.haveLocal, hbc.padding.trans hab.padding, fun q i => (hbc.received q i).trans (hab.received q i)⟩
  obtain ⟨_, _, _, rfl⟩ := hab.rest
  obtain ⟨peers, t, ct, rfl⟩ := hbc.rest
  exact ⟨peers, t, ct, rfl⟩

/-- The requests the load counts: at least those on the lists, and within the budget. -/
def Loaded (s : Scheduler l) (load : RequestLoad) : Prop :=
  s.peers.sumOf (fun _ p => p.outstanding.length) ≤ load.outstanding ∧ load.outstanding ≤ torrentRequestBudget

theorem keeps_driveStart {s : Scheduler l} (h : s.Sound) {pid : Nat} {peer : Peer} (hg : s.peers.get? pid = some peer)
    {load : RequestLoad} (hload : s.Loaded load) :
    Drive.Keeps s pid (torrentRequestBudget - load.outstanding)
      (s.driveStart peer (torrentRequestBudget - load.outstanding)) := by
  have hins : ({ s with peers := s.peers.insert pid peer } : Scheduler l).Sound := h.insert_peer hg rfl
  refine ⟨?_, ?_, Nat.le_refl _, fun p hp => (by cases hp), rfl, rfl, fun q c => Iff.rfl⟩
  · exact Drive.sound_same_states hins (h.indexed.setEndgame _) (ChunkTracker.statesOf_setEndgame _ _)
  · have hsum : (s.peers.insert pid peer).sumOf (fun _ p => p.outstanding.length) =
        s.peers.sumOf (fun _ p => p.outstanding.length) := by
      rw [OrdMap.sumOf_insert]
      exact (OrdMap.sumOf_erase (fun _ p => p.outstanding.length) s.peers hg).symm
    have h1 := hload.1
    have h2 := hload.2
    simp only [driveStart]
    omega

/-- Losing interest changes no list. -/
theorem keeps_settleInterest {s : Scheduler l} {pid limit : Nat} {d : Drive l} (h : Drive.Keeps s pid limit d) (sent : Bool) :
    Drive.Keeps s pid limit (d.settleInterest sent) := by
  unfold Drive.settleInterest
  split
  · have hself : (d.on s pid).peers.get? pid = some d.peer := OrdMap.get?_insert_self _ _ _
    refine ⟨h.sound.of_eq ?_ ?_ rfl rfl rfl rfl, ?_, h.slots, h.current, h.haveLocal, h.padding, h.received⟩
    · intro q w hw
      simp only [Drive.on, OrdMap.get?_insert] at hw ⊢
      split at hw
      · rename_i hq
        cases hw
        exact Or.inr ⟨d.peer, if_pos hq, List.Subperm.refl _⟩
      · rename_i hq
        exact Or.inr ⟨w, by rw [if_neg hq]; exact hw, List.Subperm.refl _⟩
    · rintro q p c ⟨w, hw, hm⟩
      simp only [Drive.on, OrdMap.get?_insert] at hw
      unfold Holds Drive.on
      simp only [OrdMap.get?_insert]
      split at hw
      · rename_i hq
        cases hw
        exact ⟨_, if_pos hq, hm⟩
      · rename_i hq
        exact ⟨w, by rw [if_neg hq]; exact hw, hm⟩
    · have hroom := h.room
      rw [Drive.outstanding_sum_insert] at hroom ⊢
      exact hroom
  · exact h

theorem Sound.drivePeerWith {s : Scheduler l} (h : s.Sound) (env : DriveEnv) (pid : Nat) {load : RequestLoad}
    (hload : s.Loaded load) :
    (s.drivePeerWith env pid load).1.Sound ∧ (s.drivePeerWith env pid load).1.Loaded (s.drivePeerWith env pid load).2 ∧
      Drives s (s.drivePeerWith env pid load).1 := by
  unfold Scheduler.drivePeerWith
  simp only
  split
  · exact ⟨h, hload, Drives.refl s⟩
  rename_i peer hg
  split
  · exact ⟨h, hload, Drives.refl s⟩
  split
  · exact ⟨h, hload, Drives.refl s⟩
  have hend := keeps_settleInterest
    (Drive.Keeps.loop (s.driveParams env pid peer load) (torrentRequestBudget - load.outstanding + l.totalPieces + 1)
      (keeps_driveStart h hg hload))
    env.sendNotInterested
  generalize (Drive.loop (s.driveParams env pid peer load) (torrentRequestBudget - load.outstanding + l.totalPieces + 1)
    (s.driveStart peer (torrentRequestBudget - load.outstanding))).settleInterest env.sendNotInterested = d at hend
  refine ⟨hend.sound, ⟨?_, ?_⟩, ⟨_, _, _, rfl⟩, hend.haveLocal, hend.padding, hend.received⟩
  · have hroom := hend.room
    have hslots := hend.slots
    have := hload.2
    have hpid : (s.driveParams env pid peer load).pid = pid := rfl
    rw [hpid] at hroom
    simp only
    omega
  · have hslots := hend.slots
    have := hload.2
    simp only
    omega

theorem loaded_measure {s : Scheduler l} (h : s.Sound) : s.Loaded (RequestLoad.measure s.peers) := ⟨Nat.le_refl _, h.budget⟩

theorem Sound.drivePeer {s : Scheduler l} (h : s.Sound) (env : DriveEnv) (pid : Nat) :
    (s.drivePeer env pid).Sound ∧ Drives s (s.drivePeer env pid) := by
  obtain ⟨hs, _, hd⟩ := h.drivePeerWith env pid (loaded_measure h)
  exact ⟨hs, hd⟩

theorem Sound.driveRequests {s : Scheduler l} (h : s.Sound) (env : Nat → DriveEnv) (pids : List Nat) :
    (s.driveRequests env pids).Sound ∧ Drives s (s.driveRequests env pids) := by
  unfold Scheduler.driveRequests
  have hload := loaded_measure h
  generalize RequestLoad.measure s.peers = load at hload
  induction pids generalizing s load with
  | nil => exact ⟨h, Drives.refl s⟩
  | cons pid rest ih =>
    obtain ⟨hs, hl, hd⟩ := h.drivePeerWith (env pid) pid hload
    obtain ⟨hs', hd'⟩ := ih hs _ hl
    exact ⟨hs', hd.trans hd'⟩

/-- Every event keeps the scheduler sound. -/
theorem Sound.apply {s : Scheduler l} (h : s.Sound) (e : SchedulerEvent l) : (e.apply s).Sound := by
  cases e with
  | connect pid ip maxOutstanding => exact h.connect pid ip maxOutstanding
  | retune pid peer => exact h.retune pid peer
  | refresh op => exact h.refresh op
  | drivePeer env pid => exact (h.drivePeer env pid).1
  | driveRequests env pids => exact (h.driveRequests env pids).1
  | receivePiece pid index begin data maxOutstanding => exact h.receivePiece pid index begin data maxOutstanding
  | releaseChokedRequests pid => exact h.releaseChokedRequests pid
  | applyRequestReject pid key pipeline now => exact h.applyRequestReject pid key pipeline now
  | reclaim now timeout pipeline => exact h.reclaim now timeout pipeline
  | disconnect pid => exact h.disconnect pid
  | verifyResult vr sent => exact h.processVerifyResult vr sent (fun _ _ hi => hi)
  | webseedResult vr sent => exact h.webseedResult vr sent
  | select wanted => exact h.select wanted
  | scheduleWebseedWorkers freeWorkers perJob servable => exact h.scheduleWebseedWorkers freeWorkers perJob servable
  | releaseWebseedInflight => exact h.releaseWebseedInflight
  | shuffleWebseeds order =>
    simp only [SchedulerEvent.apply]
    split
    · rename_i hperm
      exact h.shuffleWebseeds (List.isPerm_iff.mp hperm)
    · exact h

end Scheduler

end Risuko
