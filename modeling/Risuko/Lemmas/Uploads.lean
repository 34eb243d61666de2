import Risuko.Torrent.Uploads

/-!
# Uploads: requests, answers and budgets

`Answered` says that the log alternates, for every key, between the admission of a request and one decision on it, that the
rejects left waiting are still to be sent, and that the two limits count the `LiveUpload` tokens alive. It is stated while the
requests of a list are taken from the pending ones and not yet decided, so that every step is put together from smaller ones.
`Budgeted` says that the budget of a piece is what was admitted of it to the choked peer.
-/

namespace Risuko

namespace UploadPeer

variable {key : Request} {e : UploadEvent} {i : Nat} {task : UploadTask}

/-! ## The log -/

theorem openBy_admitted {answers : UploadEvent → Bool} {log : List UploadEvent}
    (h : openBy answers key log = some false) (metered : Bool) : openBy answers key (.admitted key metered :: log) = some true := by
  unfold openBy
  rw [h]
  cases metered with
  | true => simp
  | false => simp

theorem openBy_settled {log : List UploadEvent} (h : openBy (UploadEvent.settles key) key log = some true)
    (he : UploadEvent.settles key e = true) : openBy (UploadEvent.settles key) key (e :: log) = some false := by
  have hadm : ¬(e = .admitted key true ∨ e = .admitted key false) := by
    rintro (rfl | rfl)
    · simp [UploadEvent.settles] at he
    · simp [UploadEvent.settles] at he
  unfold openBy
  rw [h]
  simp [hadm, he]

/-- The key an event is about. -/
def eventKey : UploadEvent → Request
  | .admitted key _ => key
  | .piece key => key
  | .reject key => key
  | .late key => key
  | .postponed key => key
  | .gaveUp key => key
  | .cancelled key => key
  | .dropped key => key
  | .refused key => key

/-- An event that neither admits nor decides on a request for the key. -/
def Neutral (key : Request) (e : UploadEvent) : Prop :=
  e ≠ .admitted key true ∧ e ≠ .admitted key false ∧ UploadEvent.settles key e = false

theorem neutral_of_ne (h : eventKey e ≠ key) : Neutral key e := by
  refine ⟨?_, ?_, ?_⟩
  · rintro rfl
    exact h rfl
  · rintro rfl
    exact h rfl
  · unfold UploadEvent.settles
    rw [decide_eq_false_iff_not]
    rintro (rfl | rfl | rfl | rfl)
    · exact h rfl
    · exact h rfl
    · exact h rfl
    · exact h rfl

theorem openBy_neutral (h : Neutral key e) (log : List UploadEvent) :
    openBy (UploadEvent.settles key) key (e :: log) = openBy (UploadEvent.settles key) key log := by
  obtain ⟨ht, hf, hs⟩ := h
  conv_lhs => unfold openBy
  cases openBy (UploadEvent.settles key) key log with
  | none => rfl
  | some waiting => simp [ht, hf, hs]

/-! ## Answers -/

/-- The tasks and the deferred rejects that hold a `LiveUpload`. -/
def tokens (p : UploadPeer) : Nat := p.tasks.length + p.deferred.countP DeferredReject.holdsLive

/-- The bytes the tokens are for. -/
def tokenBytes (p : UploadPeer) : Nat := (p.tasks.map (fun task => task.key.2.2)).sum

/-- The rejects for a key that wait for room. -/
def waiting (p : UploadPeer) (key : Request) : Nat :=
  p.deferred.countP (fun d => d.key = key) + p.pending.owed.count key

/-- Every request admitted is pending, in the list of those being decided on, or decided on once; the rejects that wait are those
postponed and not sent; the limits count the tokens; and the peer has the fast extension. -/
structure Answered (undecided : List Request) (p : UploadPeer) : Prop where
  nodup : (undecided ++ p.pending.keys).Nodup
  log : ∀ key, openBy (UploadEvent.settles key) key p.log = some (decide (key ∈ undecided ++ p.pending.keys))
  postponed : ∀ key, p.log.count (.postponed key) = p.log.count (.late key) + p.waiting key
  live : p.pending.live = p.tokens
  liveBytes : p.pending.liveBytes = p.tokenBytes
  live_le : p.pending.live ≤ maxPendingUploadRequests
  liveBytes_le : p.pending.liveBytes ≤ maxPendingUploadBytes
  fast : p.supportsFast = true
  tended : ∀ key ∈ p.pending.keys, ∃ task ∈ p.tasks, task.key = key

variable {p : UploadPeer} {undecided : List Request} {key : Request}

/-- What `Answered` reads. -/
def answerView (p : UploadPeer) : PendingUploads × List UploadTask × List DeferredReject × List UploadEvent × Bool :=
  (p.pending, p.tasks, p.deferred, p.log, p.supportsFast)

theorem Answered.of_view (h : Answered undecided p) {p' : UploadPeer} (hv : p'.answerView = p.answerView) : Answered undecided p' := by
  simp only [answerView, Prod.mk.injEq] at hv
  obtain ⟨hp, ht, hd, hl, hf⟩ := hv
  refine ⟨?_, ?_, ?_, ?_, ?_, ?_, ?_, hf.trans h.fast, ?_⟩
  · rw [hp]
    exact h.nodup
  · rw [hp, hl]
    exact h.log
  · intro key
    rw [hl, waiting, hp, hd]
    exact h.postponed key
  · rw [hp, tokens, ht, hd]
    exact h.live
  · rw [hp, tokenBytes, ht]
    exact h.liveBytes
  · rw [hp]
    exact h.live_le
  · rw [hp]
    exact h.liveBytes_le
  · rw [hp, ht]
    exact h.tended

/-- A request leaves the pending ones to be decided on. -/
theorem Answered.forget (h : Answered undecided p) (hk : key ∈ p.pending.keys) :
    Answered (key :: undecided) (p.forget key) := by
  have hperm : (key :: undecided ++ p.pending.keys.erase key).Perm (undecided ++ p.pending.keys) := by
    rw [List.cons_append]
    exact List.perm_middle.symm.trans (List.Perm.append_left _ (List.perm_cons_erase hk).symm)
  refine ⟨?_, ?_, h.postponed, h.live, h.liveBytes, h.live_le, h.liveBytes_le, h.fast, fun k hk' => h.tended k (List.mem_of_mem_erase hk')⟩
  · exact hperm.nodup_iff.mpr h.nodup
  · intro k
    show openBy _ k p.log = some (decide (k ∈ key :: undecided ++ p.pending.keys.erase key))
    rw [h.log k, decide_eq_decide.mpr hperm.mem_iff]

theorem count_note (e e' : UploadEvent) (log : List UploadEvent) (h : e ≠ e') : (e :: log).count e' = log.count e' :=
  List.count_cons_of_ne h

/-- An event that neither admits, decides, postpones nor sends late changes nothing. -/
theorem Answered.note_neutral (h : Answered undecided p) (hn : ∀ key, Neutral key e)
    (hlate : ∀ key, e ≠ .late key) : Answered undecided (p.note e) := by
  refine ⟨h.nodup, ?_, ?_, h.live, h.liveBytes, h.live_le, h.liveBytes_le, h.fast, h.tended⟩
  · intro key
    rw [UploadPeer.note, openBy_neutral (hn key)]
    exact h.log key
  · intro key
    have hpost : e ≠ .postponed key := by
      rintro rfl
      exact absurd (hn key).2.2 (by simp [UploadEvent.settles])
    show (e :: p.log).count _ = (e :: p.log).count _ + _
    rw [count_note _ _ _ hpost, count_note _ _ _ (hlate key)]
    exact h.postponed key

/-- The log after a decision on the first undecided request. -/
theorem Answered.log_settled (h : Answered (key :: undecided) p) (he : UploadEvent.settles key e = true)
    (hkey : eventKey e = key) (k : Request) :
    openBy (UploadEvent.settles k) k (e :: p.log) = some (decide (k ∈ undecided ++ p.pending.keys)) := by
  have hfresh : key ∉ undecided ++ p.pending.keys := by
    have := h.nodup
    rw [List.cons_append, List.nodup_cons] at this
    exact this.1
  have hlog := h.log k
  by_cases hk : k = key
  · subst hk
    rw [List.cons_append] at hlog
    rw [openBy_settled (hlog.trans (by simp)) he]
    simp [hfresh]
  · rw [openBy_neutral (neutral_of_ne (by rw [hkey]; exact fun h' => hk h'.symm)), hlog]
    simp [hk]

theorem Answered.nodup_tail (h : Answered (key :: undecided) p) : (undecided ++ p.pending.keys).Nodup := by
  have := h.nodup
  rw [List.cons_append, List.nodup_cons] at this
  exact this.2

/-- A decision that leaves nothing to be sent. -/
theorem Answered.decide_now (h : Answered (key :: undecided) p)
    (he : e = .piece key ∨ e = .reject key ∨ e = .gaveUp key) : Answered undecided (p.note e) := by
  have hs : UploadEvent.settles key e = true := by
    rcases he with rfl | rfl | rfl
    · simp [UploadEvent.settles]
    · simp [UploadEvent.settles]
    · simp [UploadEvent.settles]
  have hkey : eventKey e = key := by
    rcases he with rfl | rfl | rfl
    · rfl
    · rfl
    · rfl
  refine ⟨h.nodup_tail, h.log_settled hs hkey, ?_, h.live, h.liveBytes, h.live_le, h.liveBytes_le, h.fast, h.tended⟩
  intro k
  have hpost : e ≠ .postponed k := by
    rcases he with rfl | rfl | rfl <;> simp
  have hlate : e ≠ .late k := by
    rcases he with rfl | rfl | rfl <;> simp
  show (e :: p.log).count _ = (e :: p.log).count _ + _
  rw [count_note _ _ _ hpost, count_note _ _ _ hlate]
  exact h.postponed k

theorem postponed_settles (key : Request) : UploadEvent.settles key (.postponed key) = true := by
  simp [UploadEvent.settles]

/-- The counts of a log with one more reject postponed. -/
theorem Answered.postponed_cons (h : Answered undecided p) {w : Request → Nat}
    (hw : ∀ k, w k = p.waiting k + if k = key then 1 else 0) (k : Request) :
    (UploadEvent.postponed key :: p.log).count (.postponed k) = (UploadEvent.postponed key :: p.log).count (.late k) + w k := by
  have hlate : (UploadEvent.postponed key :: p.log).count (.late k) = p.log.count (.late k) := count_note _ _ _ (by simp)
  rw [hlate, hw k, List.count_cons, h.postponed k]
  by_cases hk : k = key
  · subst hk
    simp
    omega
  · simp [hk, Ne.symm hk]

/-- The reject is left to a task, which may hold a token. -/
theorem Answered.defer (h : Answered (key :: undecided) p) (holdsLive : Bool) {pending : PendingUploads}
    (hkeys : pending.keys = p.pending.keys) (howed : pending.owed = p.pending.owed)
    (hbytes : pending.liveBytes = p.pending.liveBytes) (hlive : pending.live = p.pending.live + if holdsLive then 1 else 0)
    (hroom : pending.live ≤ maxPendingUploadRequests) :
    Answered undecided (note { p with pending := pending, deferred := p.deferred ++ [⟨key, holdsLive⟩] } (.postponed key)) := by
  refine ⟨?_, ?_, ?_, ?_, ?_, hroom, ?_, h.fast, ?_⟩
  · show (undecided ++ pending.keys).Nodup
    rw [hkeys]
    exact h.nodup_tail
  · intro k
    show _ = some (decide (k ∈ undecided ++ pending.keys))
    rw [hkeys]
    exact h.log_settled (postponed_settles key) rfl k
  · refine h.postponed_cons (fun k => ?_)
    show (p.deferred ++ [_]).countP _ + pending.owed.count k = _
    rw [List.countP_append, List.countP_singleton, howed, waiting]
    by_cases hk : k = key
    · subst hk
      simp
      omega
    · simp [hk, Ne.symm hk]
  · show pending.live = p.tasks.length + (p.deferred ++ [_]).countP _
    rw [hlive, h.live, tokens, List.countP_append, List.countP_singleton]
    simp only
    omega
  · exact hbytes.trans h.liveBytes
  · show pending.liveBytes ≤ _
    rw [hbytes]
    exact h.liveBytes_le
  · show ∀ k ∈ pending.keys, _
    rw [hkeys]
    exact h.tended

/-- The reject is put on the list of those owed. -/
theorem Answered.owe (h : Answered (key :: undecided) p) :
    Answered undecided (note { p with pending := { p.pending with owed := p.pending.owed ++ [key] } } (.postponed key)) := by
  refine ⟨h.nodup_tail, h.log_settled (postponed_settles key) rfl, ?_, h.live, h.liveBytes, h.live_le, h.liveBytes_le, h.fast, h.tended⟩
  refine h.postponed_cons (fun k => ?_)
  show p.deferred.countP _ + (p.pending.owed ++ [key]).count k = _
  rw [List.count_append, List.count_singleton, waiting]
  by_cases hk : k = key
  · subst hk
    simp
    omega
  · simp [hk, Ne.symm hk]

/-! ## The steps -/

theorem contains_iff (q : PendingUploads) (key : Request) : q.contains key = true ↔ key ∈ q.keys := by
  simp [PendingUploads.contains]

/-- A cancel is answered, its reject is left to wait, or the connection is given up. -/
theorem Answered.sendCancelReject (h : Answered (key :: undecided) p) (room : Bool) :
    Answered undecided (p.sendCancelReject key room).1 := by
  unfold UploadPeer.sendCancelReject
  split
  · exact h.decide_now (.inr (.inl rfl))
  split
  · rename_i hres
    unfold PendingUploads.reserveDeferred at hres ⊢
    by_cases hl : p.pending.live ≥ maxPendingUploadRequests
    · rw [if_pos hl] at hres
      cases hres
    · rw [if_neg hl]
      exact h.defer true rfl rfl rfl rfl (by simp only; omega)
  split
  · exact h.decide_now (.inr (.inr rfl))
  · exact h.owe

theorem refund_answerView (p : UploadPeer) (key : Request) : (p.refund key).answerView = p.answerView := by
  unfold refund
  split
  · rfl
  · rfl

theorem supportsFast_refund (p : UploadPeer) (key : Request) : (p.refund key).supportsFast = p.supportsFast := by
  unfold refund
  split
  · rfl
  · rfl

theorem neutral_cancelled (key k : Request) : Neutral k (.cancelled key) := ⟨by simp, by simp, by simp [UploadEvent.settles]⟩

theorem neutral_refused (key k : Request) : Neutral k (.refused key) := ⟨by simp, by simp, by simp [UploadEvent.settles]⟩

theorem Answered.cancelUploadRequest (h : Answered [] p) (key : Request) (room : Bool) :
    Answered [] (p.cancelUploadRequest key room) := by
  unfold UploadPeer.cancelUploadRequest
  split
  · rename_i hdropped
    have hmem : key ∈ p.pending.keys := (contains_iff _ _).mp hdropped
    have hf : Answered [key] ((note (p.forget key) (.cancelled key)).refund key) :=
      ((h.forget hmem).note_neutral (neutral_cancelled key) (by simp)).of_view (refund_answerView _ key)
    simp only [supportsFast_refund]
    rw [if_pos (by exact h.fast)]
    have hr := hf.sendCancelReject room
    split
    · exact hr
    · exact hr.of_view rfl
  · exact h

/-- The requests a choke drops are all answered, or their rejects left to wait. -/
theorem Answered.foldl_dropChoked (room : Request → Bool) (dropped : List Request) (h : Answered dropped p)
    : Answered [] (dropped.foldl (dropChoked room) p) := by
  induction dropped generalizing p with
  | nil => exact h
  | cons key dropped ih =>
    have hdrop : dropChoked room p key = p.sendOwedReject key (room key) := by
      unfold dropChoked
      rw [if_pos h.fast]
    rw [List.foldl_cons, hdrop]
    unfold sendOwedReject
    split
    · exact ih (h.decide_now (.inr (.inl rfl)))
    · exact ih (h.defer false rfl rfl rfl rfl h.live_le)

theorem Answered.dropChokedUploads (h : Answered [] p) (room : Request → Bool) :
    Answered [] (p.dropChokedUploads room) := by
  unfold UploadPeer.dropChokedUploads
  refine Answered.foldl_dropChoked room _ ?_
  have hperm : (p.pending.keys.filter (fun key => !p.keepsChoked key) ++ p.pending.keys.filter p.keepsChoked).Perm p.pending.keys :=
    List.perm_append_comm.trans (List.filter_append_perm p.keepsChoked p.pending.keys)
  refine ⟨?_, ?_, h.postponed, h.live, h.liveBytes, h.live_le, h.liveBytes_le, h.fast, fun k hk => h.tended k (List.mem_of_mem_filter hk)⟩
  · exact hperm.nodup_iff.mpr h.nodup
  · intro k
    have hlog := h.log k
    rw [List.nil_append] at hlog
    show openBy _ k p.log = _
    rw [hlog, decide_eq_decide.mpr hperm.mem_iff]

theorem Answered.setChoked (h : Answered [] p) (choke queued : Bool) (room : Request → Bool) :
    Answered [] (p.setChoked choke queued room) := by
  have hc : Answered [] { p with amChoking := choke } := h.of_view rfl
  unfold UploadPeer.setChoked
  split
  · simp only
    split
    · exact hc.dropChokedUploads room
    · exact hc
  · exact h

theorem openBy_append_late (key : Request) (keys : List Request) (log : List UploadEvent) :
    openBy (UploadEvent.settles key) key (keys.map .late ++ log) = openBy (UploadEvent.settles key) key log := by
  induction keys with
  | nil => rfl
  | cons k keys ih =>
    rw [List.map_cons, List.cons_append, openBy_neutral ⟨by simp, by simp, by simp [UploadEvent.settles]⟩, ih]

theorem count_late (key : Request) (keys : List Request) : (keys.map UploadEvent.late).count (.late key) = keys.count key := by
  induction keys with
  | nil => rfl
  | cons k keys ih => simp [List.count_cons, ih]

theorem count_postponed_late (key : Request) (keys : List Request) :
    (keys.map UploadEvent.late).count (.postponed key) = 0 := by
  simp [List.count_eq_zero]

theorem Answered.flushOwedRejects (h : Answered [] p) (room : Nat) : Answered [] (p.flushOwedRejects room) := by
  refine ⟨h.nodup, ?_, ?_, h.live, h.liveBytes, h.live_le, h.liveBytes_le, h.fast, h.tended⟩
  · intro key
    show openBy _ key ((p.pending.owed.take room).reverse.map .late ++ p.log) = _
    rw [openBy_append_late]
    exact h.log key
  · intro key
    have hsplit : p.pending.owed.count key = (p.pending.owed.take room).count key + (p.pending.owed.drop room).count key := by
      rw [← List.count_append, List.take_append_drop]
    show (_ ++ p.log).count _ = (_ ++ p.log).count _ + (p.deferred.countP _ + (p.pending.owed.drop room).count key)
    have hpost := h.postponed key
    unfold waiting at hpost
    rw [List.count_append, List.count_append, count_late, count_postponed_late, List.count_reverse]
    omega

/-- The end of a task gives back exactly what it held. -/
theorem Answered.endTask (h : Answered [] p) (hi : p.tasks[i]? = some task)
    (hk : task.key ∉ p.pending.keys) : Answered [] (p.endTask i task) := by
  have hperm := cons_eraseIdx_perm hi
  have hlen := hperm.length_eq
  have hsum := (hperm.map (fun task : UploadTask => task.key.2.2)).sum_eq
  simp only [List.length_cons, List.map_cons, List.sum_cons] at hlen hsum
  have hlive := h.live
  have hbytes := h.liveBytes
  unfold tokens at hlive
  unfold tokenBytes at hbytes
  refine ⟨h.nodup, h.log, h.postponed, ?_, ?_, ?_, ?_, h.fast, ?_⟩
  · show p.pending.live - 1 = (p.tasks.eraseIdx i).length + p.deferred.countP _
    omega
  · show p.pending.liveBytes - _ = ((p.tasks.eraseIdx i).map _).sum
    omega
  · exact le_trans (Nat.sub_le _ _) h.live_le
  · exact le_trans (Nat.sub_le _ _) h.liveBytes_le
  · intro key hkey
    obtain ⟨other, hmem, rfl⟩ := h.tended key hkey
    rcases List.mem_cons.mp (hperm.mem_iff.mpr hmem) with rfl | hrest
    · exact absurd hkey hk
    · exact ⟨other, hrest, rfl⟩

theorem Answered.setPhase (h : Answered [] p) (hi : p.tasks[i]? = some task) (phase : UploadPhase) :
    Answered [] (p.setPhase i task phase) := by
  refine ⟨h.nodup, h.log, h.postponed, ?_, ?_, h.live_le, h.liveBytes_le, h.fast, ?_⟩
  · show _ = (p.tasks.set i _).length + _
    rw [List.length_set]
    exact h.live
  · have hsum := sum_map_set (fun task : UploadTask => task.key.2.2) hi { task with phase := phase }
    have hbytes := h.liveBytes
    unfold tokenBytes at hbytes
    show p.pending.liveBytes = ((p.tasks.set i _).map _).sum
    simp only at hsum
    omega
  · intro key hkey
    obtain ⟨other, hmem, rfl⟩ := h.tended key hkey
    obtain ⟨j, hj⟩ := List.mem_iff_getElem?.mp hmem
    by_cases hji : j = i
    · subst hji
      obtain rfl : other = task := Option.some.inj (hj.symm.trans hi)
      exact ⟨{ other with phase := phase }, List.mem_of_getElem? (List.getElem?_set_self (List.getElem?_eq_some_iff.mp hj).1), rfl⟩
    · exact ⟨other, List.mem_of_getElem? ((List.getElem?_set_ne (Ne.symm hji)).trans hj), rfl⟩

/-- A request that a task has answered is no longer pending. -/
theorem Answered.answer_task (h : Answered [] p) (hi : p.tasks[i]? = some task)
    (hk : task.key ∈ p.pending.keys) (he : e = .piece task.key ∨ e = .reject task.key) :
    Answered [] (((p.forget task.key).note e).endTask i task) := by
  have hf := h.forget hk
  have hd : Answered [] ((p.forget task.key).note e) := hf.decide_now (he.imp_right .inl)
  refine hd.endTask hi (fun hmem => ?_)
  have hnodup := hf.nodup
  simp only [List.cons_append, List.nil_append, List.nodup_cons] at hnodup
  exact hnodup.1 hmem

theorem Answered.resume (h : Answered [] p) (i : Nat) (ok : Bool) : Answered [] (p.resume i true ok) := by
  have hgone : ∀ key, ¬p.pending.contains key = true → key ∉ p.pending.keys :=
    fun key hk hmem => hk ((contains_iff _ _).mpr hmem)
  unfold UploadPeer.resume
  split
  · exact h
  rename_i task hi
  split
  · split
    · exact h.setPhase hi _
    · rename_i hk
      exact h.endTask hi (hgone _ hk)
  · simp only [Bool.not_true, Bool.false_eq_true, if_false]
    split
    · exact h.setPhase hi _
    · rename_i hk
      exact h.endTask hi (hgone _ hk)
  · split
    · rename_i hk
      exact h.endTask hi (hgone _ (by simpa [PendingUploads.remove] using hk))
    · rename_i hpend
      have hmem : task.key ∈ p.pending.keys := by
        rw [Bool.not_eq_true, Bool.not_eq_false'] at hpend
        exact (contains_iff _ _).mp hpend
      split
      · exact h.answer_task hi hmem (.inl rfl)
      · rw [if_pos h.fast]
        exact h.answer_task hi hmem (.inr rfl)

/-- A task that has waited for the disk answers its request, with the piece or with a reject. -/
theorem log_resume_reading (hfast : p.supportsFast = true) (hi : p.tasks[i]? = some task)
    (hphase : task.phase = .reading) (hk : task.key ∈ p.pending.keys) (ok : Bool) :
    (p.resume i true ok).log = (if ok then .piece task.key else .reject task.key) :: p.log := by
  have hrem : (p.pending.remove task.key).2 = true := (contains_iff _ _).mpr hk
  unfold UploadPeer.resume
  simp only [hi, hphase, hrem, hfast]
  cases ok with
  | true => rfl
  | false => rfl

/-- A task that finds its request still pending goes on to its next await point. -/
theorem resume_waiting (hi : p.tasks[i]? = some task) (hphase : task.phase ≠ .reading)
    (hk : task.key ∈ p.pending.keys) (ok : Bool) :
    p.resume i true ok = p.setPhase i task (if task.phase = .limited then .reserving else .reading) := by
  have hc : p.pending.contains task.key = true := (contains_iff _ _).mpr hk
  unfold UploadPeer.resume
  cases hp : task.phase with
  | limited => simp [hi, hp, hc]
  | reserving => simp [hi, hp, hc]
  | reading => exact absurd hp hphase

/-- The task of a pending request answers it when it has run to its end. -/
theorem resume_answers (hfast : p.supportsFast = true) (hi : p.tasks[i]? = some task)
    (hk : task.key ∈ p.pending.keys) (ok : Bool) :
    ∃ n, ((fun q : UploadPeer => q.resume i true ok)^[n] p).log = (if ok then .piece task.key else .reject task.key) :: p.log := by
  have hset : ∀ phase, (p.setPhase i task phase).tasks[i]? = some { task with phase := phase } :=
    fun phase => List.getElem?_set_self (List.getElem?_eq_some_iff.mp hi).1
  cases hp : task.phase with
  | reading => exact ⟨1, log_resume_reading hfast hi hp hk ok⟩
  | reserving =>
    refine ⟨2, ?_⟩
    simp only [Function.iterate_succ, Function.iterate_zero, Function.comp_apply, id_eq]
    rw [resume_waiting hi (by simp [hp]) hk ok, hp]
    have hlog := log_resume_reading (p := p.setPhase i task .reading) hfast (hset .reading) rfl hk ok
    exact hlog
  | limited =>
    refine ⟨3, ?_⟩
    simp only [Function.iterate_succ, Function.iterate_zero, Function.comp_apply, id_eq]
    rw [resume_waiting hi (by simp [hp]) hk ok, hp, if_pos rfl, resume_waiting (hset .reserving) (by simp) hk ok]
    have hread : (((p.setPhase i task .reserving).setPhase i ⟨task.key, .reserving⟩ .reading).tasks)[i]? =
        some ⟨task.key, .reading⟩ :=
      List.getElem?_set_self (List.getElem?_eq_some_iff.mp (hset .reserving)).1
    have hlog := log_resume_reading (p := (p.setPhase i task .reserving).setPhase i ⟨task.key, .reserving⟩ .reading)
      hfast hread rfl hk ok
    exact hlog

/-- A deferred reject is sent, and what it held is given back. -/
theorem Answered.send_late (h : Answered [] p) {d : DeferredReject} (hi : p.deferred[i]? = some d)
    {pending : PendingUploads} (hkeys : pending.keys = p.pending.keys) (howed : pending.owed = p.pending.owed)
    (hbytes : pending.liveBytes = p.pending.liveBytes) (hlive : pending.live + (if d.holdsLive then 1 else 0) = p.pending.live) :
    Answered [] (note { p with deferred := p.deferred.eraseIdx i, pending := pending } (.late d.key)) := by
  have hperm := cons_eraseIdx_perm hi
  refine ⟨?_, ?_, ?_, ?_, ?_, ?_, ?_, h.fast, ?_⟩
  · show ([] ++ pending.keys).Nodup
    rw [hkeys]
    exact h.nodup
  · intro key
    have hlog : openBy (UploadEvent.settles key) key (.late d.key :: p.log) = some (decide (key ∈ [] ++ pending.keys)) := by
      rw [hkeys, openBy_neutral ⟨by simp, by simp, by simp [UploadEvent.settles]⟩]
      exact h.log key
    exact hlog
  · intro key
    have hwait := hperm.countP_eq (fun d => decide (d.key = key))
    have hpost := h.postponed key
    unfold waiting at hpost
    show (UploadEvent.late d.key :: p.log).count _ = (UploadEvent.late d.key :: p.log).count _ +
      ((p.deferred.eraseIdx i).countP _ + pending.owed.count key)
    rw [count_note _ _ _ (by simp), howed, hpost, ← hwait, List.countP_cons, List.count_cons]
    by_cases hk : d.key = key
    · simp [hk]
      omega
    · simp [hk]
  · have hheld := hperm.countP_eq DeferredReject.holdsLive
    rw [List.countP_cons] at hheld
    have hold := h.live
    unfold tokens at hold
    show pending.live = p.tasks.length + (p.deferred.eraseIdx i).countP _
    omega
  · exact hbytes.trans h.liveBytes
  · have := h.live_le
    show pending.live ≤ _
    omega
  · show pending.liveBytes ≤ _
    rw [hbytes]
    exact h.liveBytes_le
  · show ∀ k ∈ pending.keys, _
    rw [hkeys]
    exact h.tended

theorem Answered.deferredSent (h : Answered [] p) (i : Nat) : Answered [] (p.deferredSent i) := by
  unfold UploadPeer.deferredSent
  split
  · exact h
  · rename_i d hi
    cases hd : d.holdsLive with
    | false => exact h.send_late hi rfl rfl rfl (by rw [hd]; rfl)
    | true =>
      have hpos : 0 < p.deferred.countP DeferredReject.holdsLive :=
        List.countP_pos_iff.mpr ⟨d, List.mem_of_getElem? hi, hd⟩
      have hlive := h.live
      unfold tokens at hlive
      refine h.send_late hi rfl rfl rfl ?_
      rw [hd]
      simp only [if_true, PendingUploads.dropLive]
      omega

theorem admit_eq {q : PendingUploads} (h : (q.admitRequest key).2 = true) :
    key ∉ q.keys ∧ q.live < maxPendingUploadRequests ∧ q.liveBytes + key.2.2 ≤ maxPendingUploadBytes ∧
      (q.admitRequest key).1 = { q with keys := key :: q.keys, live := q.live + 1, liveBytes := q.liveBytes + key.2.2 } := by
  unfold PendingUploads.admitRequest at h ⊢
  split at h
  · rename_i hfree
    rw [if_pos hfree]
    simp only [Bool.and_eq_true, Bool.not_eq_true', PendingUploads.full, Bool.or_eq_false_iff, decide_eq_false_iff_not] at hfree
    obtain ⟨hc, hl, hb⟩ := hfree
    have hmem : key ∉ q.keys := by
      intro hk
      rw [(contains_iff q key).mpr hk] at hc
      cases hc
    refine ⟨hmem, by omega, by omega, ?_⟩
    unfold PendingUploads.insert
    rw [if_neg (by simp [hc])]
  · cases h

/-- An admitted request is pending, and its task holds a token. -/
theorem Answered.admitRequest (h : Answered [] p) (hk : key ∉ p.pending.keys) (hlive : p.pending.live < maxPendingUploadRequests)
    (hbytes : p.pending.liveBytes + key.2.2 ≤ maxPendingUploadBytes) (metered : Bool) :
    Answered [] (note { p with
      pending := { p.pending with
        keys := key :: p.pending.keys, live := p.pending.live + 1, liveBytes := p.pending.liveBytes + key.2.2 }
      tasks := p.tasks ++ [⟨key, .limited⟩] } (.admitted key metered)) := by
  refine ⟨?_, ?_, ?_, ?_, ?_, hlive, hbytes, h.fast, ?_⟩
  · exact List.nodup_cons.mpr ⟨hk, h.nodup⟩
  · intro k
    have hlog := h.log k
    rw [List.nil_append] at hlog
    show openBy _ k (.admitted key metered :: p.log) = some (decide (k ∈ key :: p.pending.keys))
    by_cases hkey : k = key
    · subst hkey
      rw [openBy_admitted (hlog.trans (by simp [hk]))]
      simp
    · rw [openBy_neutral (neutral_of_ne (fun h' => hkey h'.symm)), hlog]
      simp [hkey]
  · intro k
    show (UploadEvent.admitted key metered :: p.log).count _ = (UploadEvent.admitted key metered :: p.log).count _ + _
    rw [count_note _ _ _ (by simp), count_note _ _ _ (by simp)]
    exact h.postponed k
  · have hold := h.live
    unfold tokens at hold
    show p.pending.live + 1 = (p.tasks ++ [_]).length + p.deferred.countP _
    rw [List.length_append, List.length_singleton]
    omega
  · have hold := h.liveBytes
    unfold tokenBytes at hold
    show p.pending.liveBytes + key.2.2 = ((p.tasks ++ [UploadTask.mk key .limited]).map (fun task => task.key.2.2)).sum
    rw [List.map_append, List.sum_append, List.map_singleton, List.sum_singleton]
    simp only
    omega
  · intro k hk'
    rcases List.mem_cons.mp hk' with rfl | hold
    · exact ⟨⟨k, .limited⟩, List.mem_append_right _ (List.mem_singleton.mpr rfl), rfl⟩
    · obtain ⟨task, hmem, rfl⟩ := h.tended k hold
      exact ⟨task, List.mem_append_left _ hmem, rfl⟩

theorem Answered.sendFastReject (h : Answered [] p) (key : Request) (room : Bool) : Answered [] (p.sendFastReject key room) := by
  unfold UploadPeer.sendFastReject
  split
  · exact h.note_neutral (neutral_refused key) (by simp)
  · exact h

theorem Answered.request {l : Lengths} (h : Answered [] p) (t : PieceTracker l) (key : Request) (room : Bool) :
    Answered [] (p.request t key room) := by
  unfold UploadPeer.request UploadPeer.admitUploadRequest
  split
  · rename_i hr
    split at hr
    · cases hr
      exact h
    split at hr
    · cases hr
      exact h.sendFastReject key room
    split at hr
    · cases hr
    · cases hr
      exact h.sendFastReject key room
  · rename_i hr
    split at hr
    · cases hr
    split at hr
    · cases hr
    split at hr
    · rename_i hok
      cases hr
      rw [Bool.and_eq_true] at hok
      obtain ⟨hk, hlive, hbytes, heq⟩ := admit_eq hok.2
      rw [heq]
      refine (h.admitRequest hk hlive hbytes p.amChoking).of_view ?_
      unfold charge
      simp only
      split
      · rfl
      · rfl
    · cases hr

/-- Every step keeps the requests answered while the writer is alive. -/
theorem Answered.apply {l : Lengths} (h : Answered [] p) {op : UploadOp l} (hop : op.WriterAlive) :
    Answered [] (op.apply p) := by
  cases op with
  | request t key room => exact h.request t key room
  | cancel key room => exact h.cancelUploadRequest key room
  | setChoked choke queued room => exact h.setChoked choke queued room
  | flush room => exact h.flushOwedRejects room
  | resume i reserved ok =>
    obtain rfl : reserved = true := hop
    exact h.resume i ok
  | deferredSent i => exact h.deferredSent i

/-! ## Budgets -/

/-- The budget used of every piece is what the choked peer was admitted of it and has not cancelled, and no more than the piece. -/
structure Budgeted (l : Lengths) (p : UploadPeer) : Prop where
  exact : ∀ index, p.served index = chokedBytes p.log index
  bounded : ∀ vpi : ValidPieceIndex l, p.served vpi.val ≤ l.pieceLengthOf vpi

variable {l : Lengths}

/-- Whether an event is an admission or a cancel. -/
def chargesBudget : UploadEvent → Bool
  | .admitted _ _ => true
  | .cancelled _ => true
  | _ => false

theorem uncancelled_append (events log : List UploadEvent) (h : ∀ e ∈ events, chargesBudget e = false) :
    uncancelled (events ++ log) = uncancelled log := by
  induction events with
  | nil => rfl
  | cons e events ih =>
    have he := h e (List.mem_cons_self ..)
    have hrest := ih (fun e' he' => h e' (List.mem_cons_of_mem _ he'))
    cases e with
    | admitted key metered => cases he
    | cancelled key => cases he
    | piece key => exact hrest
    | reject key => exact hrest
    | late key => exact hrest
    | postponed key => exact hrest
    | gaveUp key => exact hrest
    | dropped key => exact hrest
    | refused key => exact hrest

/-- Steps that charge and refund nothing keep the budgets. -/
theorem Budgeted.of_events (h : Budgeted l p) {p' : UploadPeer} (events : List UploadEvent) (hs : p'.fastServed = p.fastServed)
    (hl : p'.log = events ++ p.log) (he : ∀ e ∈ events, chargesBudget e = false) : Budgeted l p' := by
  have hserved : ∀ index, p'.served index = p.served index := by
    intro index
    unfold served
    rw [hs]
  refine ⟨fun index => ?_, fun vpi => ?_⟩
  · rw [hserved, h.exact index, chokedBytes, chokedBytes, hl, uncancelled_append events p.log he]
  · rw [hserved]
    exact h.bounded vpi

theorem served_insert (p : UploadPeer) (index n index' : Nat) :
    served { p with fastServed := p.fastServed.insert index n } index' = if index' = index then n else p.served index' := by
  unfold served
  simp only
  rw [OrdMap.get?_insert]
  split
  · rfl
  · rfl

theorem chokedBytes_admitted (key : Request) (metered : Bool) (log : List UploadEvent) (index : Nat) :
    chokedBytes (.admitted key metered :: log) index =
      (if metered = true ∧ key.1 = index then key.2.2 else 0) + chokedBytes log index := by
  unfold chokedBytes
  show ((((key, metered) :: uncancelled log).filter _).map _).sum = _
  by_cases hm : metered = true ∧ key.1 = index
  · simp [hm.1, hm.2]
  · have : (metered && decide (key.1 = index)) = false := by
      rw [Bool.eq_false_iff]
      simpa using hm
    simp [this, hm]

/-- A metered request taken back lowers the bytes of its piece by its length. -/
theorem chokedBytes_eraseP (key : Request) (index : Nat) :
    ∀ (L : List (Request × Bool)), L.find? (fun r => r.1 = key) = some (key, true) →
      ((((L.eraseP (fun r => r.1 = key)).filter (fun r => r.2 && decide (r.1.1 = index))).map (fun r => r.1.2.2)).sum +
        if key.1 = index then key.2.2 else 0) = ((L.filter (fun r => r.2 && decide (r.1.1 = index))).map (fun r => r.1.2.2)).sum
  | [], h => by cases h
  | r :: L, h => by
    by_cases hr : r.1 = key
    · obtain rfl : r = (key, true) := by simpa [hr] using h
      by_cases hi : key.1 = index
      · simp [hi, Nat.add_comm]
      · simp [hi]
    · have ih := chokedBytes_eraseP key index L (by simpa [List.find?_cons, hr] using h)
      rw [List.eraseP_cons_of_neg (by simpa using hr)]
      by_cases hc : (r.2 && decide (r.1.1 = index)) = true
      · simp only [List.filter_cons, hc, if_true, List.map_cons, List.sum_cons]
        omega
      · simp only [List.filter_cons, hc]
        exact ih

/-- A request for another piece taken back does not count. -/
theorem filter_eraseP_of_ne {index : Nat} (hi : key.1 ≠ index) (L : List (Request × Bool)) :
    (L.eraseP (fun r => r.1 = key)).filter (fun r => r.2 && decide (r.1.1 = index)) =
      L.filter (fun r => r.2 && decide (r.1.1 = index)) := by
  induction L with
  | nil => rfl
  | cons r L ih =>
    by_cases hr : r.1 = key
    · have hne : ¬r.1.1 = index := by rwa [hr]
      rw [List.eraseP_cons_of_pos (by simpa using hr)]
      simp [hne]
    · rw [List.eraseP_cons_of_neg (by simpa using hr), List.filter_cons, List.filter_cons, ih]

/-- Taking a request back never adds bytes. -/
theorem chokedBytes_eraseP_le (q : Request × Bool → Bool) (L : List (Request × Bool)) (index : Nat) :
    (((L.eraseP q).filter (fun r => r.2 && decide (r.1.1 = index))).map (fun r => r.1.2.2)).sum ≤
      ((L.filter (fun r => r.2 && decide (r.1.1 = index))).map (fun r => r.1.2.2)).sum :=
  List.Sublist.sum_le_sum (((List.eraseP_sublist).filter _).map _) (by simp)

theorem Budgeted.charge (h : Budgeted l p) {vpi : ValidPieceIndex l} (hkey : key.1 = vpi.val)
    (hfits : p.amChoking = true → p.served key.1 + key.2.2 ≤ l.pieceLengthOf vpi) : Budgeted l (p.charge key) := by
  unfold UploadPeer.charge
  simp only
  cases hc : p.amChoking with
  | false =>
    rw [if_neg (by simp [note, hc])]
    refine ⟨fun index => ?_, h.bounded⟩
    show p.served index = chokedBytes (.admitted key false :: p.log) index
    rw [chokedBytes_admitted, h.exact index]
    simp
  | true =>
    rw [if_pos (by exact hc)]
    refine ⟨fun index => ?_, fun vpi' => ?_⟩
    · show _ = chokedBytes (.admitted key true :: p.log) index
      rw [served_insert, chokedBytes_admitted, ← h.exact index]
      by_cases hi : key.1 = index
      · subst hi
        simp [Nat.add_comm]
        rfl
      · rw [if_neg (Ne.symm hi), if_neg (by simp [hi]), Nat.zero_add]
        rfl
    · rw [served_insert]
      split
      · rename_i hv
        obtain rfl : vpi' = vpi := Fin.ext (hv.trans hkey)
        exact hfits hc
      · exact h.bounded vpi'

theorem Budgeted.sendFastReject (h : Budgeted l p) (key : Request) (room : Bool) : Budgeted l (p.sendFastReject key room) := by
  unfold UploadPeer.sendFastReject
  split
  · exact h.of_events [.refused key] rfl rfl (by simp [chargesBudget])
  · exact h

theorem validatePiece_val {index : Nat} {vpi : ValidPieceIndex l} (h : l.validatePiece index = .ok vpi) : index = vpi.val := by
  unfold Lengths.validatePiece at h
  split at h
  · cases h
    rfl
  · cases h

theorem Budgeted.admitUploadRequest (h : Budgeted l p) (t : PieceTracker l) (key : Request) (room : Bool) :
    Budgeted l (p.admitUploadRequest t key room).1 := by
  unfold UploadPeer.admitUploadRequest
  split
  · exact h
  split
  · exact h.sendFastReject key room
  rename_i vpi hvpi
  split
  · rename_i hok
    rw [Bool.and_eq_true] at hok
    have hq : Budgeted l { p with pending := (p.pending.admitRequest key).1 } := h.of_events [] rfl rfl (by simp)
    refine hq.charge (validatePiece_val hvpi) (fun hc => ?_)
    have hc' : p.amChoking = true := hc
    have hfits := hok.1
    simp only [fits, hc', Bool.true_and, Bool.and_eq_true, Bool.not_eq_true', decide_eq_false_iff_not] at hfits
    show p.served key.1 + key.2.2 ≤ _
    omega
  · exact h.sendFastReject key room

theorem Budgeted.request (h : Budgeted l p) (t : PieceTracker l) (key : Request) (room : Bool) :
    Budgeted l (p.request t key room) := by
  have ha := h.admitUploadRequest t key room
  unfold UploadPeer.request
  split
  · rename_i hr
    rwa [hr] at ha
  · rename_i hr
    rw [hr] at ha
    exact ha.of_events [] rfl rfl (by simp)

/-- A cancel that takes back what was charged. -/
theorem Budgeted.refund (h : Budgeted l p) {q : UploadPeer} (hs : q.fastServed = p.fastServed) (hl : q.log = p.log)
    (hk : (uncancelled p.log).find? (fun r => r.1 = key) = some (key, true) ∨ p.served key.1 = 0) :
    Budgeted l ((q.note (.cancelled key)).refund key) := by
  have hserved : ∀ index, ((q.note (.cancelled key)).refund key).served index =
      p.served index - if key.1 = index then key.2.2 else 0 := by
    intro index
    unfold UploadPeer.refund
    split
    · rename_i hnone
      have hq : q.fastServed.get? key.1 = none := hnone
      show (q.fastServed.get? index).getD 0 = (p.fastServed.get? index).getD 0 - _
      rw [← hs]
      by_cases hi : key.1 = index
      · rw [← hi, hq]
        simp
      · simp [hi]
    · rename_i served hsome
      have hq : q.fastServed.get? key.1 = some served := hsome
      rw [served_insert]
      show (if index = key.1 then _ else (q.fastServed.get? index).getD 0) = (p.fastServed.get? index).getD 0 - _
      rw [← hs]
      by_cases hi : key.1 = index
      · rw [← hi, hq]
        simp
      · rw [if_neg (Ne.symm hi), if_neg hi, Nat.sub_zero]
  have hlog : ∀ index, chokedBytes ((q.note (.cancelled key)).refund key).log index =
      ((((uncancelled p.log).eraseP (fun r => r.1 = key)).filter (fun r => r.2 && decide (r.1.1 = index))).map
        (fun r => r.1.2.2)).sum := by
    intro index
    have : ((q.note (.cancelled key)).refund key).log = .cancelled key :: p.log := by
      rw [← hl]
      unfold UploadPeer.refund
      split
      · rfl
      · rfl
    rw [this]
    rfl
  refine ⟨fun index => ?_, fun vpi => ?_⟩
  · rw [hserved, hlog, h.exact index]
    rcases hk with hk | hk
    · have := chokedBytes_eraseP key index (uncancelled p.log) hk
      unfold chokedBytes
      omega
    · by_cases hi : key.1 = index
      · have hle := chokedBytes_eraseP_le (fun r => r.1 = key) (uncancelled p.log) index
        have hzero : chokedBytes p.log index = 0 := by rw [← h.exact, ← hi, hk]
        unfold chokedBytes at hzero ⊢
        omega
      · rw [filter_eraseP_of_ne hi, if_neg hi]
        rfl
  · rw [hserved]
    exact le_trans (Nat.sub_le _ _) (h.bounded vpi)

theorem sendCancelReject_budget (p : UploadPeer) (key : Request) (room : Bool) :
    (p.sendCancelReject key room).1.fastServed = p.fastServed ∧
      ∃ e, (p.sendCancelReject key room).1.log = [e] ++ p.log ∧ chargesBudget e = false := by
  unfold UploadPeer.sendCancelReject
  split
  · exact ⟨rfl, _, rfl, rfl⟩
  split
  · exact ⟨rfl, _, rfl, rfl⟩
  split
  · exact ⟨rfl, _, rfl, rfl⟩
  · exact ⟨rfl, _, rfl, rfl⟩

theorem Budgeted.cancelUploadRequest (h : Budgeted l p) (hk : p.RefundsCharged key) (room : Bool) :
    Budgeted l (p.cancelUploadRequest key room) := by
  unfold UploadPeer.cancelUploadRequest
  split
  · rename_i hdropped
    have hr : Budgeted l (((p.forget key).note (.cancelled key)).refund key) :=
      h.refund (q := p.forget key) rfl rfl (hk hdropped)
    simp only
    split
    · obtain ⟨hs, e, hl, he⟩ := sendCancelReject_budget (((p.forget key).note (.cancelled key)).refund key) key room
      have hsent := hr.of_events _ hs hl (by simpa using he)
      split
      · exact hsent
      · exact hsent.of_events [] rfl rfl (by simp)
    · exact hr
  · exact h

theorem Budgeted.foldl_dropChoked (room : Request → Bool) (dropped : List Request) (h : Budgeted l p) :
    Budgeted l (dropped.foldl (dropChoked room) p) := by
  induction dropped generalizing p with
  | nil => exact h
  | cons key dropped ih =>
    rw [List.foldl_cons]
    apply ih
    unfold dropChoked sendOwedReject
    split
    · split
      · exact h.of_events [.reject key] rfl rfl (by simp [chargesBudget])
      · exact h.of_events [.postponed key] rfl rfl (by simp [chargesBudget])
    · exact h.of_events [.dropped key] rfl rfl (by simp [chargesBudget])

theorem Budgeted.setChoked (h : Budgeted l p) (choke queued : Bool) (room : Request → Bool) :
    Budgeted l (p.setChoked choke queued room) := by
  have hc : Budgeted l { p with amChoking := choke } := h.of_events [] rfl rfl (by simp)
  unfold UploadPeer.setChoked
  split
  · simp only
    split
    · exact Budgeted.foldl_dropChoked room _ (hc.of_events [] rfl rfl (by simp))
    · exact hc
  · exact h

theorem Budgeted.resume (h : Budgeted l p) (i : Nat) (reserved ok : Bool) : Budgeted l (p.resume i reserved ok) := by
  have hquiet : ∀ q : UploadPeer, q.fastServed = p.fastServed → q.log = p.log → Budgeted l q :=
    fun q hs hl => h.of_events [] hs hl (by simp)
  unfold UploadPeer.resume
  split
  · exact h
  rename_i task _
  split
  · split
    · exact hquiet _ rfl rfl
    · exact hquiet _ rfl rfl
  · split
    · exact hquiet _ rfl rfl
    split
    · exact hquiet _ rfl rfl
    · exact hquiet _ rfl rfl
  · split
    · exact hquiet _ rfl rfl
    split
    · exact h.of_events [.piece task.key] rfl rfl (by simp [chargesBudget])
    split
    · exact h.of_events [.reject task.key] rfl rfl (by simp [chargesBudget])
    · exact hquiet _ rfl rfl

/-- A step keeps the budgets when a cancel takes back what was charged. -/
theorem Budgeted.apply (h : Budgeted l p) {op : UploadOp l} (hop : op.RefundsCharged p) : Budgeted l (op.apply p) := by
  cases op with
  | request t key room => exact h.request t key room
  | cancel key room => exact h.cancelUploadRequest hop room
  | setChoked choke queued room => exact h.setChoked choke queued room
  | flush room =>
    refine h.of_events ((p.pending.owed.take room).reverse.map .late) rfl rfl ?_
    intro e he
    obtain ⟨key, _, rfl⟩ := List.mem_map.mp he
    rfl
  | resume i reserved ok => exact h.resume i reserved ok
  | deferredSent i =>
    show Budgeted l (p.deferredSent i)
    unfold UploadPeer.deferredSent
    split
    · exact h
    · rename_i d _
      exact h.of_events [.late d.key] rfl rfl (by simp [chargesBudget])

end UploadPeer

end Risuko
