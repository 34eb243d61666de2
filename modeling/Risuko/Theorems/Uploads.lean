import Risuko.Lemmas.Uploads
import Risuko.Lib.Reach
import Risuko.Lib.Lru

/-!
# Uploads

Whom a torrent uploads to, and which requests are cancelled.
-/

namespace Risuko

/-!
## Uploads: one answer for each request, and the budget of a choked peer

For a peer with the fast extension every admitted request gets one decision before its key can be admitted again, and the limits
count the tasks alive. A choked peer gets no more of an allowed-fast piece than its length, as long as no cancel gives back what
was never charged.
-/

section

variable {l : Lengths}

/-- A run of the uploads of a peer with the fast extension, while its writer is alive. -/
def UploadRun (l : Lengths) : UploadPeer → Prop :=
  Reach (fun p => ∃ allowed, p = UploadPeer.connected true allowed) (fun p p' => ∃ op : UploadOp l, op.WriterAlive ∧ p' = op.apply p)

/-- Every request of a run is answered or pending. -/
theorem UploadRun.answered {p : UploadPeer} (h : UploadRun l p) : p.Answered [] := by
  refine Reach.invariant ?_ ?_ h
  · rintro p ⟨allowed, rfl⟩
    exact ⟨List.nodup_nil, fun key => rfl, fun key => rfl, rfl, rfl, Nat.zero_le _, Nat.zero_le _, rfl, fun key hk => (by cases hk)⟩
  · rintro p p' hp ⟨op, hop, rfl⟩
    exact hp.apply hop

/-- In every run the log alternates, for every key, between an admission and one decision on it: the piece or the reject put in
the queue of the writer, the reject left to wait for room there, or the connection given up. A pending request has a task, which
answers it when it runs to its end. The rejects left waiting are sent once each or still wait. The two limits count the tokens
alive and are never exceeded. -/
theorem uploads_answered (p : UploadPeer) (h : UploadRun l p) :
    (∀ key, openBy (UploadEvent.settles key) key p.log = some (p.pending.contains key)) ∧
      (∀ key, p.pending.contains key = true → ∃ i task, p.tasks[i]? = some task ∧ task.key = key ∧ ∀ ok, ∃ n,
        ((fun q : UploadPeer => q.resume i true ok)^[n] p).log = (if ok then .piece key else .reject key) :: p.log) ∧
      (∀ key, p.log.count (.postponed key) =
        p.log.count (.late key) + (p.deferred.countP (fun d => d.key = key) + p.pending.owed.count key)) ∧
      p.pending.live = p.tasks.length + p.deferred.countP DeferredReject.holdsLive ∧
      p.pending.liveBytes = (p.tasks.map (fun task => task.key.2.2)).sum ∧
      p.pending.live ≤ 512 ∧ p.pending.liveBytes ≤ 8 * 1024 * 1024 := by
  have ha := h.answered
  refine ⟨fun key => ?_, fun key hk => ?_, ha.postponed, ha.live, ha.liveBytes, ha.live_le, ha.liveBytes_le⟩
  · have hlog := ha.log key
    rw [List.nil_append] at hlog
    rw [hlog, PendingUploads.contains, List.contains_eq_mem]
  · have hmem := (UploadPeer.contains_iff _ _).mp hk
    obtain ⟨task, htask, rfl⟩ := ha.tended key hmem
    obtain ⟨i, hi⟩ := List.mem_iff_getElem?.mp htask
    exact ⟨i, task, hi, rfl, UploadPeer.resume_answers ha.fast hi hmem⟩

/-- One piece of four chunks. -/
def onePiece : Lengths where
  totalLength := 65536
  pieceLength := 65536
  lastPieceIndex := 0
  lastPieceLength := 65536
  last_index_lt := (by decide : 1 < 4294967296)

/-- The tracker of a torrent that has its piece. -/
def oneLocal : PieceTracker onePiece := (PieceTracker.new onePiece).setLocal ⟨0, by decide⟩ true

/-- A run given by its steps. -/
def uploads (allowed : List Nat) (ops : List (UploadOp onePiece)) : UploadPeer :=
  ops.foldl (fun p op => op.apply p) (.connected true allowed)

/-- A request is cancelled while the queue of the writer is full, and made again. -/
def requestedAgain : UploadPeer :=
  uploads [0] [.request oneLocal (0, 0, 16384) true, .cancel (0, 0, 16384) false, .request oneLocal (0, 0, 16384) true]

theorem requestedAgain_run : UploadRun onePiece requestedAgain := by
  refine Reach.foldl (.init ⟨[0], rfl⟩) fun _ op hop => ⟨op, ?_, rfl⟩
  simp only [List.mem_cons, List.not_mem_nil, or_false] at hop
  rcases hop with rfl | rfl | rfl <;> trivial

/-- A block that is requested again while its reject is deferred is pending again. -/
theorem uploads_answered_again :
    UploadRun onePiece requestedAgain ∧ requestedAgain.pending.live = 3 ∧
      openBy (UploadEvent.settles (0, 0, 16384)) (0, 0, 16384) requestedAgain.log = some true ∧
      requestedAgain.pending.live = requestedAgain.tasks.length + requestedAgain.deferred.countP DeferredReject.holdsLive := by
  obtain ⟨hlog, _, _, hlive, _⟩ := uploads_answered requestedAgain requestedAgain_run
  exact ⟨requestedAgain_run, by decide, hlog (0, 0, 16384), hlive⟩

/-- With the queue of the writer full a cancelled request is admitted again before its reject is sent. -/
theorem readmitted_before_reject :
    ¬ ∀ p, UploadRun onePiece p → ∀ key, (openBy (UploadEvent.sentFor key) key p.log).isSome = true := by
  intro hall
  have hsome := hall requestedAgain requestedAgain_run (0, 0, 16384)
  exact absurd hsome (by decide)

/-! ### The budget of a choked peer -/

/-- A run in which every cancel takes back what was charged. -/
def ChargedRun (l : Lengths) : UploadPeer → Prop :=
  Reach (fun p => ∃ fast allowed, p = UploadPeer.connected fast allowed)
    (fun p p' => ∃ op : UploadOp l, op.RefundsCharged p ∧ p' = op.apply p)

/-- In every run whose cancels take back requests admitted while the peer was choked, or touch pieces nothing is charged to, the
requests for a piece admitted while the peer was choked and not cancelled are no longer than the piece. -/
theorem choked_budget (p : UploadPeer) (h : ChargedRun l p) (vpi : ValidPieceIndex l) :
    chokedBytes p.log vpi.val ≤ l.pieceLengthOf vpi := by
  have hb : p.Budgeted l := by
    refine Reach.invariant ?_ ?_ h
    · rintro p ⟨fast, allowed, rfl⟩
      exact ⟨fun index => rfl, fun vpi => Nat.zero_le _⟩
    · rintro p p' hp ⟨op, hop, rfl⟩
      exact hp.apply hop
  rw [← hb.exact]
  exact hb.bounded vpi

/-- The requests of a choked peer, one of them cancelled. -/
def chokedCancel : UploadPeer :=
  uploads [0] [.request oneLocal (0, 0, 65536) true, .cancel (0, 0, 65536) true, .request oneLocal (0, 0, 32768) true]

/-- A cancelled request is taken off, and the next one charged. -/
theorem choked_budget_cancelled :
    ChargedRun onePiece chokedCancel ∧ chokedBytes chokedCancel.log 0 = 32768 ∧
      chokedBytes chokedCancel.log 0 ≤ onePiece.pieceLengthOf ⟨0, by decide⟩ := by
  have hrun : ChargedRun onePiece chokedCancel := by
    refine .step (.step (.step (.init ⟨true, [0], rfl⟩) ⟨.request oneLocal (0, 0, 65536) true, trivial, rfl⟩)
      ⟨.cancel (0, 0, 65536) true, ?_, rfl⟩) ⟨.request oneLocal (0, 0, 32768) true, trivial, rfl⟩
    intro _
    left
    decide
  exact ⟨hrun, by decide, choked_budget chokedCancel hrun ⟨0, by decide⟩⟩

/-- A request made while the peer is not choked is cancelled once it is, and what the choked peer has had is forgotten. -/
def refundedTwice : UploadPeer :=
  uploads [0]
    [.setChoked false true (fun _ => true),
      .request oneLocal (0, 0, 65536) true,
      .setChoked true true (fun _ => true),
      .request oneLocal (0, 0, 65535) true,
      .cancel (0, 0, 65536) true,
      .request oneLocal (0, 1, 65535) true]

/-- What was never charged is taken off, and the choked peer gets nearly two pieces. -/
theorem refund_of_uncharged_request :
    ¬ ∀ p, UploadRun onePiece p → ∀ vpi : ValidPieceIndex onePiece, vpi.val ∈ p.sentAllowedFast →
      chokedBytes p.log vpi.val ≤ onePiece.pieceLengthOf vpi := by
  intro hall
  have hrun : UploadRun onePiece refundedTwice := by
    refine Reach.foldl (.init ⟨[0], rfl⟩) fun _ op hop => ⟨op, ?_, rfl⟩
    simp only [List.mem_cons, List.not_mem_nil, or_false] at hop
    rcases hop with rfl | rfl | rfl | rfl | rfl | rfl <;> trivial
  have hle := hall refundedTwice hrun ⟨0, by decide⟩ (by decide)
  exact absurd hle (by decide)

end

/-!
## Canceled requests are remembered by recency

A removal leaves its entry in the queue of the requests. As long as no key comes back while such an entry is left, the set is the recency
list of its calls; a key that does come back is forgotten with the entry it left.
-/

/-- A call on the canceled requests. -/
inductive CanceledCall
  | insert (key : Request)
  | remove (key : Request)

namespace CanceledRequests

def call (c : CanceledRequests) : CanceledCall → CanceledRequests
  | .insert key => c.insert key
  | .remove key => (c.remove key).1

/-- Calls on an empty set. -/
def run (calls : List CanceledCall) : CanceledRequests := calls.foldl call ⟨∅, []⟩

/-- A call on a recency list: a key leaves by a removal, or when `maxKeys` others are newer. -/
def hold (held : List Request) : CanceledCall → List Request
  | .insert key => Recency.insert maxKeys key held
  | .remove key => held.erase key

/-- The keys the calls leave, the oldest first. -/
def recent (calls : List CanceledCall) : List Request := calls.foldl hold []

/-- The answers of `remove` after the calls are those of the recency list, and both collections are bounded. -/
def Remembers (calls : List CanceledCall) : Prop :=
  (∀ key, ((run calls).remove key).2 = true ↔ key ∈ recent calls) ∧ (run calls).keys.card ≤ maxKeys ∧ (run calls).order.length ≤ 2 * maxKeys

/-- The queue has every key once, in the order of the recency list. -/
structure Queued (c : CanceledRequests) (held : List Request) : Prop where
  order_nodup : c.order.Nodup
  order_held : c.order.filter (fun k => k ∈ c.keys) = held
  keys_held : held.toFinset = c.keys
  held_length : held.length ≤ maxKeys
  order_length : c.order.length ≤ 2 * maxKeys

variable {c : CanceledRequests} {held : List Request}

theorem remove_iff (c : CanceledRequests) (key : Request) : (c.remove key).2 = true ↔ key ∈ c.keys := decide_eq_true_iff

theorem Queued.nodup (h : Queued c held) : held.Nodup := h.order_held ▸ h.order_nodup.filter _

/-- The keys that are held are those of the set. -/
theorem Queued.mem_iff (h : Queued c held) (key : Request) : key ∈ held ↔ key ∈ c.keys := by
  rw [← h.keys_held, List.mem_toFinset]

/-- The set is as large as the list. -/
theorem Queued.card (h : Queued c held) : c.keys.card = held.length := by
  rw [← h.keys_held, List.toFinset_card_of_nodup h.nodup]

/-- Trimming takes the oldest keys away until there are at most `maxKeys`. -/
theorem trim_spec : ∀ (order : List Request) (keys : Finset Request) (held : List Request), order.Nodup →
    order.filter (fun k => k ∈ keys) = held → held.toFinset = keys →
    (trim order keys).order.Nodup
      ∧ (trim order keys).order.filter (fun k => k ∈ (trim order keys).keys) = held.drop (held.length - maxKeys)
      ∧ (held.drop (held.length - maxKeys)).toFinset = (trim order keys).keys := by
  intro order
  induction order with
  | nil =>
    intro keys held hnodup hheld hkeys
    subst hheld
    simpa [trim] using hkeys
  | cons oldest order ih =>
    intro keys held hnodup hheld hkeys
    have hheldnodup : held.Nodup := hheld ▸ hnodup.filter _
    have hcard : keys.card = held.length := by rw [← hkeys, List.toFinset_card_of_nodup hheldnodup]
    rw [trim]
    by_cases hmax : maxKeys < keys.card
    · rw [if_pos hmax]
      rw [List.nodup_cons] at hnodup
      have hrest : order.filter (fun k => k ∈ keys.erase oldest) = order.filter (fun k => k ∈ keys) := by
        refine List.filter_congr fun k hk => ?_
        have hne : k ≠ oldest := ne_of_mem_of_not_mem hk hnodup.1
        simp [Finset.mem_erase, hne]
      by_cases hold : oldest ∈ keys
      · -- the oldest key of the list leaves
        rw [List.filter_cons_of_pos (by simpa using hold)] at hheld
        subst hheld
        rw [List.toFinset_cons] at hkeys
        rw [List.nodup_cons] at hheldnodup
        have herase : (order.filter fun k => k ∈ keys).toFinset = keys.erase oldest :=
          calc (order.filter fun k => k ∈ keys).toFinset
            _ = (Insert.insert oldest (order.filter fun k => k ∈ keys).toFinset).erase oldest :=
              (Finset.erase_insert (by simpa using hheldnodup.1)).symm
            _ = keys.erase oldest := congrArg (fun s => s.erase oldest) hkeys
        obtain ⟨hn, hfilter, hset⟩ := ih (keys.erase oldest) _ hnodup.2 hrest herase
        rw [List.length_cons] at hcard ⊢
        rw [Nat.succ_sub (by omega), List.drop_succ_cons]
        exact ⟨hn, hfilter, hset⟩
      · -- an entry of a removed key
        rw [List.filter_cons_of_neg (by simpa using hold)] at hheld
        obtain ⟨hn, hfilter, hset⟩ := ih (keys.erase oldest) held hnodup.2 (hrest.trans hheld) (by
          rw [Finset.erase_eq_of_notMem hold, hkeys])
        exact ⟨hn, hfilter, hset⟩
    · rw [if_neg hmax, Nat.sub_eq_zero_of_le (by omega), List.drop_zero]
      exact ⟨hnodup, hheld, hkeys⟩

theorem Queued.empty : Queued ⟨∅, []⟩ [] :=
  ⟨List.nodup_nil, rfl, rfl, Nat.zero_le _, Nat.zero_le _⟩

/-- A key that is removed is held no longer. -/
theorem Queued.remove (h : Queued c held) (key : Request) : Queued (c.remove key).1 (held.erase key) := by
  refine ⟨h.order_nodup, ?_, ?_, (List.length_erase_le).trans h.held_length, h.order_length⟩
  · rw [h.nodup.erase_eq_filter, ← h.order_held, List.filter_filter]
    refine List.filter_congr fun k _ => ?_
    by_cases hk : k = key <;> simp [CanceledRequests.remove, hk]
  · ext k
    rw [List.mem_toFinset, h.nodup.mem_erase_iff, h.mem_iff, CanceledRequests.remove, Finset.mem_erase]

/-- The part of `insert` behind the trimming. -/
theorem Queued.compact (h : c.order.Nodup) (hheld : c.order.filter (fun k => k ∈ c.keys) = held) (hkeys : held.toFinset = c.keys)
    (hlen : held.length ≤ maxKeys) :
    Queued (if 2 * maxKeys < c.order.length then { c with order := c.order.filter (fun k => k ∈ c.keys) } else c) held := by
  split
  · refine ⟨h.filter _, ?_, hkeys, hlen, ?_⟩
    · rw [List.filter_filter]
      simpa using hheld
    · rw [hheld]
      show held.length ≤ 2 * maxKeys
      omega
  · exact ⟨h, hheld, hkeys, hlen, by omega⟩

/-- A key that is inserted is the latest, and the oldest goes when there are too many. -/
theorem Queued.insert (h : Queued c held) {key : Request} (hfresh : key ∉ c.keys → key ∉ c.order) :
    Queued (c.insert key) (Recency.insert maxKeys key held) := by
  by_cases hkey : key ∈ c.keys
  · rw [Recency.insert_of_mem h.nodup h.held_length ((h.mem_iff key).mpr hkey), CanceledRequests.insert, if_pos hkey,
      Finset.insert_eq_of_mem hkey]
    obtain ⟨hn, hfilter, hset⟩ := trim_spec c.order c.keys held h.order_nodup h.order_held h.keys_held
    rw [Nat.sub_eq_zero_of_le h.held_length, List.drop_zero] at hfilter hset
    exact Queued.compact hn hfilter hset h.held_length
  · have hheld : key ∉ held := fun hmem => hkey ((h.mem_iff key).mp hmem)
    rw [Recency.insert_of_notMem h.nodup hheld, CanceledRequests.insert, if_neg hkey]
    have hfilter : (c.order ++ [key]).filter (fun k => k ∈ Insert.insert key c.keys) = held ++ [key] := by
      rw [List.filter_append, List.filter_cons_of_pos (by simp), List.filter_nil, ← h.order_held]
      congr 1
      refine List.filter_congr fun k hk => ?_
      have hne : k ≠ key := ne_of_mem_of_not_mem hk (hfresh hkey)
      simp [Finset.mem_insert, hne]
    obtain ⟨hn, hfilter, hset⟩ := trim_spec (c.order ++ [key]) (Insert.insert key c.keys) (held ++ [key])
      (List.nodup_append'.mpr ⟨h.order_nodup, List.nodup_singleton key, List.disjoint_singleton.mpr (hfresh hkey)⟩) hfilter (by
        rw [List.toFinset_append, h.keys_held, List.toFinset_cons, List.toFinset_nil, Finset.union_comm]
        rfl)
    rw [List.length_append, List.length_singleton] at hfilter hset
    refine Queued.compact hn hfilter hset ?_
    rw [List.length_drop, List.length_append, List.length_singleton]
    omega

/-- No key comes back while an entry is left of it. -/
def NoneComesBack (calls : List CanceledCall) : Prop :=
  ∀ i key, calls[i]? = some (.insert key) → key ∉ (run (calls.take i)).keys → key ∉ (run (calls.take i)).order

/-- As long as no forgotten key comes back, the set holds the most recent keys. -/
theorem queued_run {calls : List CanceledCall} (h : NoneComesBack calls) : Queued (run calls) (recent calls) := by
  induction calls using List.reverseRecOn with
  | nil => exact Queued.empty
  | append_singleton calls last ih =>
    have hqueued : Queued (run calls) (recent calls) := by
      refine ih fun i key hi hkey => ?_
      have hlt := (List.getElem?_eq_some_iff.mp hi).1
      have := h i key (by rw [List.getElem?_append_left hlt, hi])
      rw [List.take_append_of_le_length hlt.le] at this
      exact this hkey
    rw [run, recent, List.foldl_append, List.foldl_append]
    cases last with
    | insert key =>
      have hlast := h calls.length key List.getElem?_concat_length
      rw [List.take_left] at hlast
      exact hqueued.insert hlast
    | remove key => exact hqueued.remove key

/-- When no key comes back while an entry is left of it, the answers are those of the recency list, after every call. -/
theorem canceled_remembered (calls : List CanceledCall) (h : NoneComesBack calls) : Remembers calls := by
  have hqueued := queued_run h
  refine ⟨fun key => ?_, ?_, hqueued.order_length⟩
  · rw [hqueued.mem_iff, remove_iff]
  · rw [hqueued.card]
    exact hqueued.held_length

/-- A block is canceled, arrives late, and another one is canceled. -/
theorem canceled_remembered_late :
    Remembers [.insert (0, 0, 16384), .insert (1, 0, 16384), .remove (0, 0, 16384), .insert (2, 0, 16384)] :=
  canceled_remembered _ fun i key hi hkey => by
    rcases i with _ | _ | _ | _ | i
    · exact List.not_mem_nil
    · cases hi
      decide
    · cases hi
    · cases hi
      decide
    · cases hi

/-! ### A key that comes back -/

/-- New keys fill the set one after the other. -/
theorem foldl_insert (keys : List Request) : ∀ (c : CanceledRequests), keys.Nodup → (∀ k ∈ keys, k ∉ c.keys) →
    c.keys.card + keys.length ≤ maxKeys → c.order.length + keys.length ≤ 2 * maxKeys →
    (keys.map CanceledCall.insert).foldl call c = ⟨c.keys ∪ keys.toFinset, c.order ++ keys⟩ := by
  induction keys with
  | nil =>
    intro c _ _ _ _
    simp
  | cons key keys ih =>
    intro c hnodup hnew hcard horder
    rw [List.nodup_cons] at hnodup
    rw [List.length_cons] at hcard horder
    have hkey : key ∉ c.keys := hnew key List.mem_cons_self
    have htrim : ∀ order, trim order (Insert.insert key c.keys) = ⟨Insert.insert key c.keys, order⟩ := by
      intro order
      cases order with
      | nil => rfl
      | cons oldest order => rw [trim, if_neg (by rw [Finset.card_insert_of_notMem hkey]; omega)]
    have hinsert : c.insert key = ⟨Insert.insert key c.keys, c.order ++ [key]⟩ := by
      rw [CanceledRequests.insert, if_neg hkey, htrim, if_neg]
      show ¬ 2 * maxKeys < (c.order ++ [key]).length
      rw [List.length_append, List.length_singleton]
      omega
    rw [List.map_cons, List.foldl_cons, call, hinsert, ih _ hnodup.2]
    · simp [Finset.union_insert]
    · intro k hk
      have hne : k ≠ key := ne_of_mem_of_not_mem hk hnodup.1
      simpa [hne] using hnew k (List.mem_cons_of_mem key hk)
    · show (Insert.insert key c.keys).card + keys.length ≤ maxKeys
      rw [Finset.card_insert_of_notMem hkey]
      omega
    · show (c.order ++ [key]).length + keys.length ≤ 2 * maxKeys
      rw [List.length_append, List.length_singleton]
      omega

/-- New keys are held in their order as long as there is room. -/
theorem foldl_hold (keys : List Request) : ∀ held : List Request, held.Nodup → keys.Nodup → (∀ k ∈ keys, k ∉ held) →
    held.length + keys.length ≤ maxKeys → (keys.map CanceledCall.insert).foldl hold held = held ++ keys := by
  induction keys with
  | nil => simp
  | cons key keys ih =>
    intro held hheld hnodup hnew hlen
    rw [List.nodup_cons] at hnodup
    rw [List.length_cons] at hlen
    have hkey : key ∉ held := hnew key List.mem_cons_self
    rw [List.map_cons, List.foldl_cons, hold, Recency.insert_of_notMem hheld hkey, Nat.sub_eq_zero_of_le (by omega), List.drop_zero,
      ih (held ++ [key])]
    · rw [List.append_assoc, List.singleton_append]
    · exact List.nodup_append'.mpr ⟨hheld, List.nodup_singleton key, List.disjoint_singleton.mpr hkey⟩
    · exact hnodup.2
    · intro k hk
      have hne : k ≠ key := ne_of_mem_of_not_mem hk hnodup.1
      simpa [hne] using hnew k (List.mem_cons_of_mem key hk)
    · rw [List.length_append, List.length_singleton]
      omega

/-- One request is canceled, answered late and canceled again after `maxKeys` others. -/
def canceledAgain : List CanceledCall :=
  ([.insert (0, 0, 16384), .remove (0, 0, 16384)] : List CanceledCall)
    ++ ((List.range maxKeys).map fun i => ((i + 1, 0, 16384) : Request)).map .insert ++ [.insert (0, 0, 16384)]

/-- The request that was canceled last is forgotten at once. -/
theorem canceledAgain_forgotten : ¬ Remembers canceledAgain := by
  rintro ⟨hanswer, -, -⟩
  set others : List Request := (List.range maxKeys).map fun i => (i + 1, 0, 16384) with hothers
  have hnodup : others.Nodup := List.nodup_range.map fun a b hab => by simpa using hab
  have hlen : others.length = maxKeys := by rw [hothers, List.length_map, List.length_range]
  have hkey : ((0, 0, 16384) : Request) ∉ others := by simp [hothers]
  -- the first entry of the key is still in the queue when the key comes back
  have hfull : run ([.insert (0, 0, 16384), .remove (0, 0, 16384)] ++ others.map .insert) = ⟨others.toFinset, (0, 0, 16384) :: others⟩ := by
    have hfirst : [.insert (0, 0, 16384), .remove (0, 0, 16384)].foldl call ⟨∅, []⟩ = ⟨∅, [(0, 0, 16384)]⟩ := rfl
    rw [run, List.foldl_append, hfirst, foldl_insert others _ hnodup (fun k _ => Finset.notMem_empty k)]
    · simp
    · show 0 + others.length ≤ maxKeys
      omega
    · show 1 + others.length ≤ 2 * maxKeys
      rw [hlen]
      decide
  have hrun : (run canceledAgain).keys = others.toFinset := by
    have hcard : (Insert.insert ((0, 0, 16384) : Request) others.toFinset).card = maxKeys + 1 := by
      rw [Finset.card_insert_of_notMem (by simpa using hkey), List.toFinset_card_of_nodup hnodup, hlen]
    have htrim : trim ((0, 0, 16384) :: others ++ [(0, 0, 16384)]) (Insert.insert (0, 0, 16384) others.toFinset) =
        ⟨others.toFinset, others ++ [(0, 0, 16384)]⟩ := by
      rw [List.cons_append, trim, if_pos (by omega), Finset.erase_insert (by simpa using hkey)]
      cases h : others ++ [(0, 0, 16384)] with
      | nil => rfl
      | cons oldest order => rw [trim, if_neg (by rw [List.toFinset_card_of_nodup hnodup]; omega)]
    have hnew : ((0, 0, 16384) : Request) ∉ others.toFinset := by simpa using hkey
    rw [canceledAgain, ← hothers, run, List.foldl_append, ← run, hfull, List.foldl_cons, List.foldl_nil, call, CanceledRequests.insert]
    simp only [if_neg hnew, htrim]
    split <;> rfl
  have hmax : 0 < maxKeys := by
    unfold maxKeys
    omega
  have hrecent : ((0, 0, 16384) : Request) ∈ recent canceledAgain := by
    have hfirst : [.insert (0, 0, 16384), .remove (0, 0, 16384)].foldl hold [] = [] := by decide
    rw [canceledAgain, ← hothers, recent, List.foldl_append, List.foldl_append, hfirst, foldl_hold others [] List.nodup_nil hnodup
      (fun k _ => List.not_mem_nil) (by rw [List.length_nil, hlen, Nat.zero_add]), List.nil_append, List.foldl_cons, List.foldl_nil, hold]
    exact Recency.mem_insert_self hmax hkey
  have hheld := (hanswer _).mpr hrecent
  rw [remove_iff, hrun, List.mem_toFinset] at hheld
  exact hkey hheld

end CanceledRequests

end Risuko
