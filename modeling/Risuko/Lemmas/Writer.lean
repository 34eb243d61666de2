import Risuko.Lib.Reach
import Risuko.Peer.Writer

/-!
# What the writer has handed over

The bytes the transport took, with those that are pending after them, are the encrypted text of everything loaded so far (`Sent`). A
poll of `write_all` that is done has loaded its buffer, and has left some of it pending exactly when the transport stalled after that
(`stalls`).
-/

namespace Risuko

/-! ## Answers -/

/-- The answers after the one that takes the last of `n` bytes. -/
def afterTaking : List Answer → Nat → Option (List Answer)
  | answers, 0 => some answers
  | .took (k + 1) :: rest, n + 1 => afterTaking rest (n - k)
  | _, _ + 1 => none

/-- Whether the transport is not ready before it has taken `n` bytes. -/
def stops : List Answer → Nat → Bool
  | _, 0 => false
  | [], _ + 1 => true
  | .pending :: _, _ + 1 => true
  | .took (k + 1) :: rest, n + 1 => stops rest (n - k)
  | _, _ + 1 => false

/-- Whether the transport takes the `old` bytes that are pending and then is not ready before it has taken the `new` ones. -/
def stalls (answers : List Answer) (old new : Nat) : Bool :=
  match afterTaking answers old with
  | some rest => stops rest new
  | none => false

namespace Rc4WriteHalf

variable {w : Rc4WriteHalf} {start : Rc4} {plain : List UInt8}

/-- All that was loaded, encrypted from the start of the keystream on, is with the transport or pending, in order. -/
structure Sent (start : Rc4) (plain : List UInt8) (w : Rc4WriteHalf) : Prop where
  bytes : w.inner ++ w.undelivered = Keystream.apply Rc4.next start plain
  cipher : w.cipher = Keystream.after Rc4.next start plain

theorem sent_new (start : Rc4) : Sent start [] (new start) := ⟨rfl, rfl⟩

theorem undelivered_eq_nil (h : ¬ w.pendingOff < w.pending.length) : w.undelivered = [] :=
  List.drop_eq_nil_of_le (Nat.le_of_not_lt h)

theorem length_undelivered (w : Rc4WriteHalf) : w.undelivered.length = w.pending.length - w.pendingOff := List.length_drop

theorem undelivered_hand (w : Rc4WriteHalf) (n : Nat) : (w.hand n).undelivered = w.undelivered.drop n := by
  show w.pending.drop (w.pendingOff + min n w.undelivered.length) = (w.pending.drop w.pendingOff).drop n
  rw [List.drop_drop]
  rcases Nat.le_total n w.undelivered.length with hle | hle
  · rw [Nat.min_eq_left hle]
  · rw [Nat.min_eq_right hle]
    rw [length_undelivered] at hle ⊢
    rw [List.drop_eq_nil_of_le (by omega), List.drop_eq_nil_of_le (by omega)]

theorem Sent.hand (h : Sent start plain w) (n : Nat) :
    Sent start plain (w.hand n) := by
  refine ⟨?_, h.cipher⟩
  rw [undelivered_hand]
  show w.inner ++ w.undelivered.take n ++ w.undelivered.drop n = _
  rw [List.append_assoc, List.take_append_drop, h.bytes]

theorem Sent.clear (h : Sent start plain w) (hempty : w.undelivered = []) :
    Sent start plain w.clear := by
  refine ⟨?_, h.cipher⟩
  have hbytes := h.bytes
  rw [hempty] at hbytes
  exact hbytes

theorem Sent.load (h : Sent start plain w) (hempty : w.undelivered = [])
    (buf : List UInt8) : Sent start (plain ++ buf) (w.load buf) := by
  have hbytes := h.bytes
  rw [hempty, List.append_nil] at hbytes
  refine ⟨?_, ?_⟩
  · show w.inner ++ Keystream.apply Rc4.next w.cipher buf = _
    rw [Keystream.apply_append, hbytes, h.cipher]
  · show Keystream.after Rc4.next w.cipher buf = _
    rw [Keystream.after_append, h.cipher]

/-! ## One poll -/

theorem Sent.pollDrain (h : Sent start plain w) (answers : List Answer) :
    Sent start plain (pollDrain answers w).2.1 := by
  induction answers generalizing w with
  | nil =>
    unfold Rc4WriteHalf.pollDrain
    split
    · exact h
    · rename_i hdone
      exact h.clear (undelivered_eq_nil hdone)
  | cons a rest ih =>
    unfold Rc4WriteHalf.pollDrain
    split
    · match a with
      | .took 0 => exact h
      | .took (n + 1) => exact ih (h.hand _)
      | .failed e => exact h
      | .pending => exact h
    · rename_i hdone
      exact h.clear (undelivered_eq_nil hdone)

/-- What a drain comes to, by the answers alone: it is done with the answers after the last byte, or it is stopped. -/
theorem pollDrain_outcome (answers : List Answer) (w : Rc4WriteHalf) :
    match pollDrain answers w with
    | (.ready _, w', rest) => w'.undelivered = [] ∧ afterTaking answers w.undelivered.length = some rest ∧
        stops answers w.undelivered.length = false
    | (.pending, w', _) => w'.undelivered ≠ [] ∧ stops answers w.undelivered.length = true
    | (.failed _, _, _) => afterTaking answers w.undelivered.length = none ∧ stops answers w.undelivered.length = false := by
  induction answers generalizing w with
  | nil =>
    unfold pollDrain
    by_cases hleft : w.pendingOff < w.pending.length
    · obtain ⟨n, hn⟩ : ∃ n, w.undelivered.length = n + 1 := ⟨w.undelivered.length - 1, by rw [length_undelivered]; omega⟩
      simp only [hleft, if_true, hn]
      exact ⟨fun he => (by rw [he] at hn; cases hn), rfl⟩
    · simp only [hleft, if_false, undelivered_eq_nil hleft]
      exact ⟨rfl, rfl, rfl⟩
  | cons a rest ih =>
    unfold pollDrain
    by_cases hleft : w.pendingOff < w.pending.length
    · obtain ⟨n, hn⟩ : ∃ n, w.undelivered.length = n + 1 := ⟨w.undelivered.length - 1, by rw [length_undelivered]; omega⟩
      simp only [hleft, if_true, hn]
      match a with
      | .took 0 => exact ⟨rfl, rfl⟩
      | .took (k + 1) =>
        have hlen : (w.hand (k + 1)).undelivered.length = n - k := by
          rw [undelivered_hand, List.length_drop, hn]
          omega
        have hrest := ih (w.hand (k + 1))
        rw [hlen] at hrest
        exact hrest
      | .failed e => exact ⟨rfl, rfl⟩
      | .pending => exact ⟨fun he => (by rw [he] at hn; cases hn), rfl⟩
    · simp only [hleft, if_false, undelivered_eq_nil hleft]
      exact ⟨rfl, by rw [List.length_nil, afterTaking], by rw [List.length_nil, stops]⟩

theorem pollWriteAll_cons (fuel : Nat) (answers : List Answer) (w : Rc4WriteHalf) (b : UInt8) (tail : List UInt8) :
    pollWriteAll (fuel + 1) answers w (b :: tail) =
      match pollWrite answers w (b :: tail) with
      | (.ready 0, w, _) => (.failed "failed to write whole buffer", w, b :: tail)
      | (.ready n, w, answers) => pollWriteAll fuel answers w ((b :: tail).drop n)
      | (.failed e, w, _) => (.failed e, w, b :: tail)
      | (.pending, w, _) => (.pending, w, b :: tail) := rfl

/-- One poll of `write_all`: when it is done, its buffer is loaded, and some of it is left pending exactly when the transport
stalled; when it is not, nothing of the buffer is loaded. -/
theorem Sent.pollWriteAll (h : Sent start plain w) (answers : List Answer)
    {buf : List UInt8} (hbuf : buf ≠ []) :
    match pollWriteAll buf.length answers w buf with
    | (.ready _, w', _) => Sent start (plain ++ buf) w' ∧ (w'.undelivered = [] ↔ stalls answers w.undelivered.length buf.length = false)
    | (.pending, w', rest) => Sent start plain w' ∧ rest = buf
    | (.failed _, _, _) => True := by
  obtain ⟨b, tail, rfl⟩ := List.exists_cons_of_ne_nil hbuf
  have hfirst := pollDrain_outcome answers w
  have hsent := h.pollDrain answers
  rw [List.length_cons, pollWriteAll_cons, pollWrite]
  rcases hdrain : Rc4WriteHalf.pollDrain answers w with ⟨_ | _ | e, w₁, rest⟩
  · rw [hdrain] at hfirst hsent
    obtain ⟨hempty, htaken, _⟩ := hfirst
    have hsecond := pollDrain_outcome rest (w₁.load (b :: tail))
    have hloaded := (hsent.load hempty (b :: tail)).pollDrain rest
    have hlen : (w₁.load (b :: tail)).undelivered.length = tail.length + 1 := by
      show ((w₁.cipher.applyKeystream (b :: tail)).1.drop 0).length = _
      rw [List.drop_zero, Rc4.applyKeystream, Keystream.length_apply, List.length_cons]
    rw [hlen] at hsecond
    have hstalls : stalls answers w.undelivered.length (tail.length + 1) = stops rest (tail.length + 1) := by
      unfold stalls
      rw [htaken]
    have hdone : ∀ (answers' : List Answer) (w' : Rc4WriteHalf),
        Rc4WriteHalf.pollWriteAll tail.length answers' w' ((b :: tail).drop (tail.length + 1)) = (.ready (), w', []) := by
      intro answers' w'
      rw [List.drop_eq_nil_of_le (by simp)]
      unfold Rc4WriteHalf.pollWriteAll
      rfl
    simp only [List.isEmpty_cons, Bool.false_eq_true, if_false, hstalls, List.length_cons]
    rcases hload : Rc4WriteHalf.pollDrain rest (w₁.load (b :: tail)) with ⟨_ | _ | e, w₂, rest'⟩
    · rw [hload] at hsecond hloaded
      simp only [hdone]
      exact ⟨hloaded, fun _ => hsecond.2.2, fun _ => hsecond.1⟩
    · rw [hload] at hsecond hloaded
      simp only [hdone]
      refine ⟨hloaded, fun he => absurd he hsecond.1, fun hno => ?_⟩
      rw [hsecond.2] at hno
      cases hno
    · trivial
  · rw [hdrain] at hsent
    exact ⟨hsent, rfl⟩
  · trivial

theorem Sent.writeAll {polls : List (List Answer)} {w' : Rc4WriteHalf} {buf : List UInt8}
    (h : Sent start plain w) (hw : writeAll polls w buf = some w') : Sent start (plain ++ buf) w' := by
  induction polls generalizing w with
  | nil =>
    cases buf with
    | nil =>
      cases hw
      simpa using h
    | cons b tail => cases hw
  | cons answers polls ih =>
    cases buf with
    | nil =>
      cases hw
      simpa using h
    | cons b tail =>
      have hpoll := h.pollWriteAll answers (List.cons_ne_nil b tail)
      rw [Rc4WriteHalf.writeAll] at hw
      · match hres : Rc4WriteHalf.pollWriteAll (b :: tail).length answers w (b :: tail) with
        | (.ready _, w₁, _) =>
          rw [hres] at hw hpoll
          cases hw
          exact hpoll.1
        | (.pending, w₁, rest) =>
          rw [hres] at hw hpoll
          obtain ⟨hsent, rfl⟩ := hpoll
          exact ih hsent hw
        | (.failed e, w₁, rest) =>
          rw [hres] at hw
          cases hw
      · intro he
        cases he

end Rc4WriteHalf

/-! ## The task -/

namespace WriterTask

variable {s s' : WriterTask} {start : Rc4}

/-- What of the taken bytes is not loaded into the half yet. -/
def unwritten (s : WriterTask) : List UInt8 :=
  match s.phase with
  | .waiting | .flushing | .ended _ => []
  | .commands | .pieces => s.batch
  | .writing rest => rest

/-- Where the batch may be filled. -/
def Filling (s : WriterTask) : Prop := s.phase = .waiting ∨ s.phase = .commands ∨ s.phase = .pieces

theorem Filling.not_ended (h : s.Filling) (reason : String) : s.phase ≠ .ended reason := by
  intro he
  unfold Filling at h
  rw [he] at h
  rcases h with h | h | h
  · cases h
  · cases h
  · cases h

theorem Filling.not_writing (h : s.Filling) (rest : List UInt8) : s.phase ≠ .writing rest := by
  intro he
  unfold Filling at h
  rw [he] at h
  rcases h with h | h | h
  · cases h
  · cases h
  · cases h

/-- The taken bytes are those loaded and those of the batch under way; between two batches nothing is pending. -/
structure Ordered (start : Rc4) (s : WriterTask) : Prop where
  loaded : (∃ reason, s.phase = .ended reason) ∨ ∃ plain, Rc4WriteHalf.Sent start plain s.writer ∧ plain ++ s.unwritten = s.taken
  nonempty : ∀ rest, s.phase = .writing rest → rest ≠ []
  drained : s.Filling → 0 < s.batches → s.writer.undelivered = []

theorem Ordered.sent (h : s.Ordered start) (hp : ∀ reason, s.phase ≠ .ended reason) :
    ∃ plain, Rc4WriteHalf.Sent start plain s.writer ∧ plain ++ s.unwritten = s.taken := by
  rcases h.loaded with ⟨reason, he⟩ | hsent
  · exact absurd he (hp reason)
  · exact hsent

/-- The transport does not stall on a batch: in no poll does it take all that is pending and then, the batch being loaded, stop before
the end of it. -/
def Unstalled (s : WriterTask) (e : WriterEvent) : Prop :=
  match e, s.phase with
  | .poll answers, .writing rest => stalls answers s.writer.undelivered.length rest.length = false
  | _, _ => True

instance (s : WriterTask) (e : WriterEvent) : Decidable (s.Unstalled e) := by
  unfold Unstalled
  split
  · exact inferInstance
  · exact inferInstance

theorem ordered_start {hello : List UInt8} {w : Rc4WriteHalf} (h : Rc4WriteHalf.Sent start hello w) :
    (WriterTask.start w hello).Ordered start where
  loaded := .inr ⟨hello, h, List.append_nil _⟩
  nonempty rest hp := by cases hp
  drained _ hb := by cases hb

/-- A step that fills the batch. -/
theorem Ordered.fill (h : s.Ordered start) (hopen : s.Filling)
    (hphase : s'.phase = .commands ∨ s'.phase = .pieces) (hwriter : s'.writer = s.writer) (hbatches : s'.batches = s.batches)
    (more : List UInt8) (hbatch : s'.batch = s.unwritten ++ more) (htaken : s'.taken = s.taken ++ more) : s'.Ordered start := by
  have hfilling : s'.Filling := .inr hphase
  have hunwritten : s'.unwritten = s'.batch := by
    unfold unwritten
    rcases hphase with hp | hp
    · rw [hp]
    · rw [hp]
  obtain ⟨plain, hsent, hsplit⟩ := h.sent hopen.not_ended
  refine ⟨.inr ⟨plain, hwriter ▸ hsent, ?_⟩, fun rest hp => absurd hp (hfilling.not_writing rest), fun _ hb => ?_⟩
  · rw [hunwritten, hbatch, htaken, ← List.append_assoc, hsplit]
  · rw [hwriter]
    exact h.drained hopen (hbatches ▸ hb)

/-- The same when nothing is added. -/
theorem Ordered.keep (h : s.Ordered start) (hopen : s.Filling)
    (hphase : s'.phase = .commands ∨ s'.phase = .pieces) (hwriter : s'.writer = s.writer) (hbatches : s'.batches = s.batches)
    (hbatch : s'.batch = s.unwritten) (htaken : s'.taken = s.taken) : s'.Ordered start :=
  h.fill hopen hphase hwriter hbatches [] (by rw [hbatch, List.append_nil]) (by rw [htaken, List.append_nil])

/-- A step to a phase in which nothing waits to be loaded. -/
theorem Ordered.rest (hphase : s'.phase = .waiting ∨ s'.phase = .flushing) {plain : List UInt8}
    (hsent : Rc4WriteHalf.Sent start plain s'.writer) (hplain : plain = s'.taken)
    (hdrained : 0 < s'.batches → s'.phase = .waiting → s'.writer.undelivered = []) : s'.Ordered start := by
  have hunwritten : s'.unwritten = [] := by
    unfold unwritten
    rcases hphase with hp | hp
    · rw [hp]
    · rw [hp]
  refine ⟨.inr ⟨plain, hsent, by rw [hunwritten, List.append_nil, hplain]⟩, fun rest hp => ?_, fun ho hb => ?_⟩
  · rcases hphase with hp' | hp'
    · rw [hp'] at hp
      cases hp
    · rw [hp'] at hp
      cases hp
  · rcases hphase with hp | hp
    · exact hdrained hb hp
    · unfold Filling at ho
      rw [hp] at ho
      rcases ho with ho | ho | ho
      · cases ho
      · cases ho
      · cases ho

/-- A step to a write that is under way. -/
theorem Ordered.write {rest : List UInt8} (hphase : s'.phase = .writing rest) (hrest : rest ≠ [])
    {plain : List UInt8} (hsent : Rc4WriteHalf.Sent start plain s'.writer) (hsplit : plain ++ rest = s'.taken) : s'.Ordered start := by
  have hunwritten : s'.unwritten = rest := by
    unfold unwritten
    rw [hphase]
  refine ⟨.inr ⟨plain, hsent, by rw [hunwritten, hsplit]⟩, fun rest' hp => ?_, fun ho _ => absurd hphase (ho.not_writing rest)⟩
  rw [hphase] at hp
  cases hp
  exact hrest

/-- A step that ends the task. -/
theorem ordered_ended {reason : String} (hp : s'.phase = .ended reason) : s'.Ordered start := by
  refine ⟨.inl ⟨reason, hp⟩, fun rest hr => ?_, fun ho _ => absurd hp (ho.not_ended reason)⟩
  rw [hp] at hr
  cases hr

/-- A step that changes only what is queued. -/
theorem Ordered.queue (h : s.Ordered start) (hphase : s'.phase = s.phase)
    (hwriter : s'.writer = s.writer) (hbatch : s'.batch = s.batch) (htaken : s'.taken = s.taken) (hbatches : s'.batches = s.batches) :
    s'.Ordered start := by
  have hunwritten : s'.unwritten = s.unwritten := by
    unfold unwritten
    rw [hphase, hbatch]
  refine ⟨?_, ?_, ?_⟩
  · rw [hwriter, hunwritten, htaken, hphase]
    exact h.loaded
  · rw [hphase]
    exact h.nonempty
  · unfold Filling
    rw [hphase, hwriter, hbatches]
    exact h.drained

/-- The end of the loops that fill the batch. -/
theorem Ordered.startWrite (h : s.Ordered start) (hp : s.phase = .pieces) : s.startWrite.Ordered start := by
  have hopen : s.Filling := .inr (.inr hp)
  have hunwritten : s.unwritten = s.batch := by
    unfold unwritten
    rw [hp]
  obtain ⟨plain, hsent, hsplit⟩ := h.sent hopen.not_ended
  rw [hunwritten] at hsplit
  unfold WriterTask.startWrite
  split
  · rename_i hne
    refine Ordered.write rfl ?_ hsent hsplit
    intro hnil
    rw [hnil] at hne
    cases hne
  · rename_i hempty
    have hnil : s.batch = [] := by simpa using hempty
    rw [hnil, List.append_nil] at hsplit
    split
    · exact Ordered.rest (.inr rfl) hsent hsplit (fun _ hw => by cases hw)
    · exact Ordered.rest (.inl rfl) hsent hsplit (fun hb _ => h.drained hopen hb)

/-- What taking a command does to the batch. -/
theorem Ordered.takeCommand (h : s.Ordered start) (hopen : s.Filling) (hbatch : s.batch = s.unwritten)
    (cmd : PeerCommand) (rest : List PeerCommand) : ({ s.takeCommand cmd rest with phase := .commands } : WriterTask).Ordered start := by
  cases cmd with
  | send msg => exact h.fill hopen (.inl rfl) rfl rfl msg.encode (congrArg (· ++ msg.encode) hbatch) rfl
  | disconnect => exact h.keep hopen (.inl rfl) rfl rfl hbatch rfl

theorem Ordered.select (h : s.Ordered start) (hp : s.phase = .waiting) (hs : s.select = some s') :
    s'.Ordered start := by
  have hunwritten : s.unwritten = [] := by
    unfold unwritten
    rw [hp]
  have hsame : ({ s with batch := [], disconnect := false } : WriterTask).unwritten = [] := by
    unfold unwritten
    rw [hp]
  have hopen : s.Filling := .inl hp
  have hclear : ({ s with batch := [], disconnect := false } : WriterTask).Ordered start := by
    refine ⟨?_, h.nonempty, h.drained⟩
    rw [hsame, ← hunwritten]
    exact h.loaded
  unfold WriterTask.select at hs
  simp only at hs
  split at hs
  · cases hs
    exact hclear.takeCommand hopen hsame.symm _ _
  · cases hs
    exact ordered_ended rfl
  split at hs
  · split at hs
    · rename_i _ msg rest _
      cases hs
      exact hclear.fill hopen (.inl rfl) rfl rfl msg.encode (congrArg (· ++ msg.encode) hsame.symm) rfl
    · cases hs
      exact hclear.keep hopen (.inl rfl) rfl rfl hsame.symm rfl
    · cases hs
  · cases hs

theorem Ordered.tryCommand (h : s.Ordered start) (hp : s.phase = .commands) : s.tryCommand.Ordered start := by
  have hopen : s.Filling := .inr (.inl hp)
  have hsame : s.batch = s.unwritten := by
    unfold unwritten
    rw [hp]
  have hnext : ({ s with phase := .pieces } : WriterTask).Ordered start := h.keep hopen (.inr rfl) rfl rfl hsame rfl
  unfold WriterTask.tryCommand
  split
  · split
    · rename_i cmd rest _
      refine (h.takeCommand hopen hsame cmd rest).queue ?_ rfl rfl rfl rfl
      cases cmd with
      | send msg => exact hp
      | disconnect => exact hp
    · exact hnext
  · exact hnext

theorem Ordered.tryPiece (h : s.Ordered start) (hp : s.phase = .pieces) : s.tryPiece.Ordered start := by
  have hsame : s.batch = s.unwritten := by
    unfold unwritten
    rw [hp]
  unfold WriterTask.tryPiece
  split
  · split
    · rename_i _ msg rest _
      exact h.fill (.inr (.inr hp)) (.inr hp) rfl rfl msg.encode (congrArg (· ++ msg.encode) hsame) rfl
    · exact h.startWrite hp
    · have hclosed : ({ s with pieceOpen := false } : WriterTask).Ordered start := h.queue rfl rfl rfl rfl rfl
      exact hclosed.startWrite hp
  · exact h.startWrite hp

/-- A poll of the write on which the transport does not stall. -/
theorem Ordered.pollWriting (h : s.Ordered start) {rest : List UInt8} (hp : s.phase = .writing rest)
    {answers : List Answer} (hstall : stalls answers s.writer.undelivered.length rest.length = false) :
    (s.pollWriting rest answers).Ordered start := by
  have hunwritten : s.unwritten = rest := by
    unfold unwritten
    rw [hp]
  obtain ⟨plain, hsent, hsplit⟩ := h.sent (fun reason he => by rw [hp] at he; cases he)
  rw [hunwritten] at hsplit
  have hpoll := hsent.pollWriteAll answers (h.nonempty rest hp)
  unfold WriterTask.pollWriting
  match hres : Rc4WriteHalf.pollWriteAll rest.length answers s.writer rest with
  | (.ready _, w, _) =>
    rw [hres] at hpoll
    refine Ordered.rest ?_ hpoll.1 hsplit (fun _ _ => hpoll.2.mpr hstall)
    simp only
    split
    · exact .inr rfl
    · exact .inl rfl
  | (.pending, w, rest') =>
    rw [hres] at hpoll
    obtain ⟨hsent', rfl⟩ := hpoll
    exact Ordered.write rfl (h.nonempty _ hp) hsent' hsplit
  | (.failed e, w, rest') => exact ordered_ended rfl

theorem Ordered.pollFlushing (h : s.Ordered start) (hp : s.phase = .flushing) (answers : List Answer) :
    (s.pollFlushing answers).Ordered start := by
  have hunwritten : s.unwritten = [] := by
    unfold unwritten
    rw [hp]
  obtain ⟨plain, hsent, hsplit⟩ := h.sent (fun reason he => by rw [hp] at he; cases he)
  rw [hunwritten, List.append_nil] at hsplit
  have hdrain := hsent.pollDrain answers
  have hstay : ({ s with writer := (Rc4WriteHalf.pollDrain answers s.writer).2.1 } : WriterTask).Ordered start := by
    refine Ordered.rest (.inr hp) hdrain hsplit (fun _ hw => ?_)
    rw [hp] at hw
    cases hw
  unfold WriterTask.pollFlushing
  split
  · rename_i hres
    rw [hres] at hstay
    exact hstay
  · rename_i hres
    rw [hres] at hstay
    exact hstay
  · rename_i hres
    rw [hres] at hstay
    exact hstay
  · exact ordered_ended rfl

/-- Every step on which the transport does not stall keeps the order. -/
theorem Ordered.step (h : s.Ordered start) {e : WriterEvent} (hu : s.Unstalled e)
    (hs : s.step e = some s') : s'.Ordered start := by
  cases e with
  | sendCommand cmd | sendPiece msg =>
    simp only [WriterTask.step] at hs
    split at hs
    · cases hs
    · cases hs
      exact h.queue rfl rfl rfl rfl rfl
  | closeCommands | closePieces =>
    cases hs
    exact h.queue rfl rfl rfl rfl rfl
  | run =>
    simp only [WriterTask.step] at hs
    split at hs
    · rename_i hp
      exact h.select hp hs
    · rename_i hp
      cases hs
      exact h.tryCommand hp
    · rename_i hp
      cases hs
      exact h.tryPiece hp
    · cases hs
  | poll answers =>
    simp only [WriterTask.step] at hs
    split at hs
    · rename_i rest hp
      cases hs
      unfold Unstalled at hu
      rw [hp] at hu
      exact h.pollWriting hp hu
    · rename_i hp
      cases hs
      exact h.pollFlushing hp answers
    · cases hs
  | timeout =>
    simp only [WriterTask.step] at hs
    split at hs
    · cases hs
      exact ordered_ended rfl
    · cases hs
      exact ordered_ended rfl
    · cases hs

end WriterTask

end Risuko
