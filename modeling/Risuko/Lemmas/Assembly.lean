import Risuko.Lemmas.Drive

/-!
# Assemblies and the chunk tracker record the same receipts

`Fits s q a` says that the assembly of a piece agrees with the chunk tracker: a chunk is received exactly when it has a source,
padding is where the padding flags say, and while the assembly is open its buffer holds, at each chunk of a peer, the data of
the one delivery it accepted there. `Assembled` says so of every piece that is not local, and that a piece without an assembly
has received its padding only. Every event keeps it.
-/

namespace Risuko

namespace Scheduler

variable {l : Lengths}
variable {a : PieceAssembly} {i : Nat} {data : List UInt8}

/-- The length of a chunk. -/
def chunkLength (q : ValidPieceIndex l) (c : Nat) : Nat := min (l.pieceLengthOf q - c * chunkSize) chunkSize

/-- The buffer holds these bytes at a chunk. -/
def HoldsAt (buf : List UInt8) (c : Nat) (data : List UInt8) : Prop := ∀ k < data.length, buf[c * chunkSize + k]? = data[k]?

structure Fits (s : Scheduler l) (q : ValidPieceIndex l) (a : PieceAssembly) : Prop where
  length : a.sources.length = l.chunkCount q
  received : ∀ c : Nat, (s.chunkTracker.statesOf q)[c]? = some .received ↔ ∃ src, a.sources[c]? = some (some src)
  padding : ∀ c : Nat, a.sources[c]? = some (some .padding) ↔ (s.chunkTracker.paddingChunks q)[c]? = some true
  full : a.completed = true → ∀ c < l.chunkCount q, ∃ src, a.sources[c]? = some (some src)
  size : a.completed = false → a.buf.length = l.pieceLengthOf q
  content : a.completed = false → ∀ (c : Nat) (ip : Nat), a.sources[c]? = some (some (.peer ip)) →
    ∃ d ∈ s.accepted, d.assembly = a.id ∧ d.begin = c * chunkSize ∧ d.ip = ip ∧ d.data.length = chunkLength q c ∧
      HoldsAt a.buf c d.data
  zero : a.completed = false → ∀ c : Nat, a.sources[c]? = some (some .padding) → HoldsAt a.buf c (List.replicate (chunkLength q c) 0)
  vacant : ∀ c : Nat, a.sources[c]? = some none → ∀ d ∈ s.accepted, d.assembly = a.id → d.begin ≠ c * chunkSize
  unique : ∀ d ∈ s.accepted, ∀ d' ∈ s.accepted, d.assembly = a.id → d'.assembly = a.id → d.begin = d'.begin → d = d'

/-- The ghost records: the numbers of assemblies are distinct, and no buffer was handed out twice. -/
structure Numbered (s : Scheduler l) : Prop where
  idLt : ∀ k a, s.pieceAssemblies.get? k = some a → a.id < s.nextAssembly
  idInj : ∀ k k' a a', s.pieceAssemblies.get? k = some a → s.pieceAssemblies.get? k' = some a' → a.id = a'.id → k = k'
  logLt : ∀ d ∈ s.accepted, d.assembly < s.nextAssembly
  handedLt : ∀ e ∈ s.writeTasks, e.1 < s.nextAssembly
  handedOnce : (s.writeTasks.map Prod.fst).Nodup
  unhanded : ∀ k a, s.pieceAssemblies.get? k = some a → a.completed = false → a.id ∉ s.writeTasks.map Prod.fst

structure Assembled (s : Scheduler l) : Prop where
  open' : ∀ q a, s.pieceTracker.haveLocal q = false → s.pieceAssemblies.get? q.val = some a → s.Fits q a
  absent : ∀ q, s.pieceTracker.haveLocal q = false → s.pieceAssemblies.get? q.val = none →
    ∀ c : Nat, (s.chunkTracker.statesOf q)[c]? = some .received ↔ (s.chunkTracker.paddingChunks q)[c]? = some true
  numbered : s.Numbered
  neverReset : s.resetTaken = false

/-! ## Frames -/

theorem Fits.of_eq {s s' : Scheduler l} {q : ValidPieceIndex l} (h : s.Fits q a)
    (hp : s'.chunkTracker.padding = s.chunkTracker.padding)
    (hr : ∀ c : Nat, (s'.chunkTracker.statesOf q)[c]? = some .received ↔ (s.chunkTracker.statesOf q)[c]? = some .received)
    (ha : s'.accepted = s.accepted) : s'.Fits q a where
  length := h.length
  received := fun c => (hr c).trans (h.received c)
  padding := fun c => by
    rw [h.padding c]
    simp only [ChunkTracker.paddingChunks, hp]
  full := h.full
  size := h.size
  content := by rw [ha]; exact h.content
  zero := h.zero
  vacant := by rw [ha]; exact h.vacant
  unique := by rw [ha]; exact h.unique

/-- An assembly that only padding went into has received only padding. -/
theorem Fits.received_of_onlyPadding {s : Scheduler l} {q : ValidPieceIndex l} (h : s.Fits q a)
    (ho : onlyPadding a = true) (c : Nat) :
    (s.chunkTracker.statesOf q)[c]? = some .received ↔ (s.chunkTracker.paddingChunks q)[c]? = some true := by
  rw [h.received c, ← h.padding c]
  constructor
  · rintro ⟨src, hsrc⟩
    unfold onlyPadding at ho
    have hall := List.all_eq_true.mp ho _ (List.mem_of_getElem? hsrc)
    simp only [beq_iff_eq] at hall
    rw [hsrc, hall]
  · exact fun hsrc => ⟨_, hsrc⟩

theorem Numbered.of_sub {s s' : Scheduler l} (h : s.Numbered)
    (hk : ∀ k a, s'.pieceAssemblies.get? k = some a → s.pieceAssemblies.get? k = some a) (hn : s'.nextAssembly = s.nextAssembly)
    (ha : s'.accepted = s.accepted) (hw : s'.writeTasks = s.writeTasks) : s'.Numbered where
  idLt := fun k a hg => by rw [hn]; exact h.idLt k a (hk k a hg)
  idInj := fun k k' a a' hg hg' => h.idInj k k' a a' (hk k a hg) (hk k' a' hg')
  logLt := by rw [ha, hn]; exact h.logLt
  handedLt := by rw [hw, hn]; exact h.handedLt
  handedOnce := by rw [hw]; exact h.handedOnce
  unhanded := fun k a hg hc => by rw [hw]; exact h.unhanded k a (hk k a hg) hc

/-- Events that receive nothing: requests are made or released, and assemblies without data may be dropped. -/
theorem Assembled.of_frame {s s' : Scheduler l} (h : s.Assembled)
    (hl : s'.pieceTracker.haveLocal = s.pieceTracker.haveLocal) (hp : s'.chunkTracker.padding = s.chunkTracker.padding)
    (hr : ∀ (q : ValidPieceIndex l) (c : Nat),
      (s'.chunkTracker.statesOf q)[c]? = some .received ↔ (s.chunkTracker.statesOf q)[c]? = some .received)
    (hk : ∀ k, s'.pieceAssemblies.get? k = s.pieceAssemblies.get? k ∨
      (s'.pieceAssemblies.get? k = none ∧ ∃ a, s.pieceAssemblies.get? k = some a ∧ onlyPadding a = true))
    (hn : s'.nextAssembly = s.nextAssembly) (ha : s'.accepted = s.accepted) (hw : s'.writeTasks = s.writeTasks)
    (hreset : s'.resetTaken = s.resetTaken) : s'.Assembled := by
  have hpad : ∀ (q : ValidPieceIndex l) (c : Nat), (s'.chunkTracker.paddingChunks q)[c]? = (s.chunkTracker.paddingChunks q)[c]? := by
    intro q c
    simp only [ChunkTracker.paddingChunks, hp]
  refine ⟨fun q a hql hg => ?_, fun q hql hg c => ?_, h.numbered.of_sub (fun k a hg => ?_) hn ha hw, by rw [hreset]; exact h.neverReset⟩
  · rw [hl] at hql
    rcases hk q.val with hsame | ⟨hnone, _⟩
    · rw [hsame] at hg
      exact (h.open' q a hql hg).of_eq hp (hr q) ha
    · rw [hnone] at hg
      cases hg
  · rw [hl] at hql
    rw [hr q c, hpad q c]
    rcases hk q.val with hsame | ⟨_, a, ha', honly⟩
    · rw [hsame] at hg
      exact h.absent q hql hg c
    · exact (h.open' q a hql ha').received_of_onlyPadding honly c
  · rcases hk k with hsame | ⟨hnone, _⟩
    · rw [← hsame]
      exact hg
    · rw [hnone] at hg
      cases hg

/-- Events that start a piece anew: its assembly goes, and its states are the first ones or it is local. -/
theorem Assembled.of_restart {s s' : Scheduler l} (h : s.Assembled) (vpi : ValidPieceIndex l)
    (hl : ∀ q, q ≠ vpi → s'.pieceTracker.haveLocal q = s.pieceTracker.haveLocal q)
    (hp : s'.chunkTracker.padding = s.chunkTracker.padding)
    (hs : ∀ q, s'.chunkTracker.statesOf q = if q = vpi then s.chunkTracker.initialStates vpi else s.chunkTracker.statesOf q)
    (hk : s'.pieceAssemblies = s.pieceAssemblies.erase vpi.val) (hn : s'.nextAssembly = s.nextAssembly)
    (ha : s'.accepted = s.accepted) (hw : s'.writeTasks = s.writeTasks) (hreset : s'.resetTaken = s.resetTaken) : s'.Assembled := by
  have hpad : ∀ (q : ValidPieceIndex l) (c : Nat), (s'.chunkTracker.paddingChunks q)[c]? = (s.chunkTracker.paddingChunks q)[c]? := by
    intro q c
    simp only [ChunkTracker.paddingChunks, hp]
  refine ⟨fun q a hql hg => ?_, fun q hql hg c => ?_, h.numbered.of_sub (fun k a hg => ?_) hn ha hw, by rw [hreset]; exact h.neverReset⟩
  · rw [hk, OrdMap.get?_erase] at hg
    split at hg
    · cases hg
    · rename_i hne
      have hq : q ≠ vpi := fun he => hne (by rw [he])
      rw [hl q hq] at hql
      exact (h.open' q a hql hg).of_eq hp (fun c => by rw [hs q, if_neg hq]) ha
  · rw [hpad q c, hs q]
    split
    · rename_i hq
      rw [hq, ChunkTracker.getElem?_initialStates]
      cases (s.chunkTracker.paddingChunks vpi)[c]? with
      | none => simp
      | some b => cases b <;> simp
    · rename_i hq
      rw [hl q hq] at hql
      rw [hk, OrdMap.get?_erase_of_ne _ (Fin.val_ne_of_ne hq)] at hg
      exact h.absent q hql hg c
  · rw [hk, OrdMap.get?_erase] at hg
    split at hg
    · cases hg
    · exact hg

/-! ## Deliveries -/

/-- The assembly a delivery finds or creates fits the piece. -/
theorem fits_assemblyFor {s : Scheduler l} (h : s.Assembled) {q : ValidPieceIndex l} (hq : s.pieceTracker.haveLocal q = false) :
    s.Fits q (s.assemblyFor q) := by
  cases hg : s.pieceAssemblies.get? q.val with
  | some a =>
    unfold assemblyFor
    rw [hg]
    exact h.open' q a hq hg
  | none =>
    -- a new assembly: its sources are the padding flags, its number is new and its buffer is all zeros
    unfold assemblyFor
    rw [hg, Option.getD_none]
    have hsrc : ∀ c : Nat, (((s.chunkTracker.paddingChunks q).map (fun pad => if pad then some ChunkSource.padding else none))[c]?) =
        ((s.chunkTracker.paddingChunks q)[c]?).map (fun pad => if pad then some ChunkSource.padding else none) := by
      intro c
      rw [List.getElem?_map]
    have hnew : ∀ d ∈ s.accepted, d.assembly ≠ s.nextAssembly := fun d hd => Nat.ne_of_lt (h.numbered.logLt d hd)
    refine ⟨?_, fun c => ?_, fun c => ?_, fun hc => by simp at hc, fun _ => ?_, fun _ c ip hc => ?_, fun _ c hc k hk => ?_,
      fun c _ d hd he => absurd he (hnew d hd), fun d hd _ _ he => absurd he (hnew d hd)⟩
    · simp only [List.length_map]
      exact length_paddingFlags l s.chunkTracker.padding q
    · rw [h.absent q hq hg c]
      simp only [hsrc]
      cases (s.chunkTracker.paddingChunks q)[c]? with
      | none => simp
      | some b => cases b <;> simp
    · simp only [hsrc]
      cases (s.chunkTracker.paddingChunks q)[c]? with
      | none => simp
      | some b => cases b <;> simp
    · simp
    · simp only [hsrc] at hc
      cases hb : (s.chunkTracker.paddingChunks q)[c]? with
      | none => simp [hb] at hc
      | some b => cases b <;> simp [hb] at hc
    · simp only [List.length_replicate] at hk
      have hlt : c * chunkSize + k < l.pieceLengthOf q := by
        unfold chunkLength at hk
        omega
      simp [hk, hlt]

/-- Data that an assembly does not take is of a chunk that was received before. -/
theorem received_of_not_accepts {s : Scheduler l} {q : ValidPieceIndex l} (h : s.Fits q a)
    (hi : i < l.chunkCount q) (hlen : data.length = chunkLength q i)
    (hno : accepts a (i * chunkSize) data.length = false) : (s.chunkTracker.statesOf q)[i]? = some .received := by
  rw [h.received i]
  have hlt : i < a.sources.length := by rw [h.length]; exact hi
  cases hc : a.completed with
  | true => exact h.full hc i hi
  | false =>
    unfold accepts at hno
    have hin := (Lengths.lt_chunkCount_iff q i).mp hi
    have hfit : i * chunkSize + data.length ≤ a.buf.length := by
      rw [h.size hc, hlen]
      unfold chunkLength
      omega
    rw [hc, Nat.mul_div_cancel i (show 0 < chunkSize by decide)] at hno
    simp only [Bool.not_false, Bool.true_and, hfit, decide_true, beq_eq_false_iff_ne, ne_eq] at hno
    cases hsrc : a.sources[i] with
    | none => exact absurd (by rw [List.getElem?_eq_getElem hlt, hsrc]) hno
    | some src => exact ⟨src, by rw [List.getElem?_eq_getElem hlt, hsrc]⟩

/-- Data for one chunk does not touch another one. -/
theorem holdsAt_overwrite_of_ne {buf other : List UInt8} {c : Nat} (hfit : i * chunkSize + data.length ≤ buf.length)
    (hd : data.length ≤ chunkSize) (ho : other.length ≤ chunkSize) (hne : c ≠ i) (h : HoldsAt buf c other) :
    HoldsAt (overwrite buf (i * chunkSize) data) c other := by
  intro k hk
  rw [getElem?_overwrite hfit, if_neg]
  · exact h k hk
  · unfold chunkSize at *
    omega

theorem holdsAt_overwrite_self {buf : List UInt8} (hfit : i * chunkSize + data.length ≤ buf.length) :
    HoldsAt (overwrite buf (i * chunkSize) data) i data := by
  intro k hk
  rw [getElem?_overwrite hfit, if_pos (by omega), Nat.add_sub_cancel_left]

theorem chunkLength_le (q : ValidPieceIndex l) (c : Nat) : chunkLength q c ≤ chunkSize := Nat.min_le_right _ _

/-- A delivery accepted by another assembly says nothing about this one. -/
theorem Fits.of_cons {s s' : Scheduler l} {q : ValidPieceIndex l} (h : s.Fits q a)
    (hp : s'.chunkTracker.padding = s.chunkTracker.padding) (hs : s'.chunkTracker.statesOf q = s.chunkTracker.statesOf q)
    {d : Delivery} (hd : d.assembly ≠ a.id) (ha : s'.accepted = d :: s.accepted) : s'.Fits q a where
  length := h.length
  received := fun c => by rw [hs]; exact h.received c
  padding := fun c => by
    rw [h.padding c]
    simp only [ChunkTracker.paddingChunks, hp]
  full := h.full
  size := h.size
  content := by
    intro hc c ip hsrc
    obtain ⟨d', hd', hrest⟩ := h.content hc c ip hsrc
    exact ⟨d', by rw [ha]; exact List.mem_cons_of_mem _ hd', hrest⟩
  zero := h.zero
  vacant := by
    intro c hc d' hd' hid
    rw [ha, List.mem_cons] at hd'
    rcases hd' with rfl | hd'
    · exact absurd hid hd
    · exact h.vacant c hc d' hd' hid
  unique := by
    intro d₁ h₁ d₂ h₂ e₁ e₂
    rw [ha, List.mem_cons] at h₁ h₂
    rcases h₁ with rfl | h₁
    · exact absurd e₁ hd
    rcases h₂ with rfl | h₂
    · exact absurd e₂ hd
    exact h.unique d₁ h₁ d₂ h₂ e₁ e₂

/-- An assembly that takes the data of a chunk fits the piece with the chunk received. -/
theorem Fits.accept {s s' : Scheduler l} {q : ValidPieceIndex l} (h : s.Fits q a) {ip : Nat}
    (hidx : s.chunkTracker.Indexed False) (hi : i < l.chunkCount q) (hlen : data.length = chunkLength q i)
    (hacc : accepts a (i * chunkSize) data.length = true) (hp : s'.chunkTracker.padding = s.chunkTracker.padding)
    (hs : s'.chunkTracker.statesOf q = (s.chunkTracker.statesOf q).set i .received)
    (ha : s'.accepted = ⟨a.id, i * chunkSize, ip, data⟩ :: s.accepted) :
    s'.Fits q { a with sources := a.sources.set i (some (.peer ip)), buf := overwrite a.buf (i * chunkSize) data } := by
  simp only [accepts, Nat.mul_div_cancel i (show 0 < chunkSize by decide), Bool.and_eq_true, Bool.not_eq_true', decide_eq_true_eq,
    beq_iff_eq] at hacc
  obtain ⟨⟨hopen, hfit⟩, hfree⟩ := hacc
  have hlt : i < a.sources.length := (List.getElem?_eq_some_iff.mp hfree).1
  have hdl : data.length ≤ chunkSize := by rw [hlen]; exact chunkLength_le q i
  have hsrc : ∀ c : Nat, (a.sources.set i (some (.peer ip)))[c]? = if i = c then some (some (.peer ip)) else a.sources[c]? := by
    intro c
    rw [List.getElem?_set]
    split
    · rfl
    · rfl
  refine ⟨by rw [List.length_set]; exact h.length, fun c => ?_, fun c => ?_, fun hc => by simp [hopen] at hc, fun _ => ?_,
    fun _ c ip' hc => ?_, fun _ c hc => ?_, fun c hc d hd hid => ?_, fun d hd d' hd' hid hid' hb => ?_⟩
  · rw [hs, List.getElem?_set, hsrc]
    split
    · rename_i hic
      subst hic
      have hst : i < (s.chunkTracker.statesOf q).length := by rw [ChunkTracker.length_statesOf hidx]; exact hi
      simp [hst]
    · exact h.received c
  · have hpad : (s'.chunkTracker.paddingChunks q)[c]? = (s.chunkTracker.paddingChunks q)[c]? := by
      simp only [ChunkTracker.paddingChunks, hp]
    rw [hpad, ← h.padding c, hsrc]
    split
    · rename_i hic
      subst hic
      rw [hfree]
      simp
    · rfl
  · rw [length_overwrite hfit]
    exact h.size hopen
  · rw [hsrc] at hc
    split at hc
    · rename_i hic
      subst hic
      cases hc
      exact ⟨_, by rw [ha]; exact List.mem_cons_self .., rfl, rfl, rfl, hlen, holdsAt_overwrite_self hfit⟩
    · rename_i hic
      obtain ⟨d, hd, hid, hb, hdip, hdlen, hholds⟩ := h.content hopen c ip' hc
      refine ⟨d, by rw [ha]; exact List.mem_cons_of_mem _ hd, hid, hb, hdip, hdlen, ?_⟩
      exact holdsAt_overwrite_of_ne hfit hdl (by rw [hdlen]; exact chunkLength_le q c) (Ne.symm hic) hholds
  · rw [hsrc] at hc
    split at hc
    · cases hc
    · rename_i hic
      exact holdsAt_overwrite_of_ne hfit hdl (by rw [List.length_replicate]; exact chunkLength_le q c) (Ne.symm hic)
        (h.zero hopen c hc)
  · rw [hsrc] at hc
    split at hc
    · cases hc
    · rename_i hic
      rw [ha, List.mem_cons] at hd
      rcases hd with rfl | hd
      · intro he
        exact hic (Nat.eq_of_mul_eq_mul_right (by decide) he)
      · exact h.vacant c hc d hd hid
  · rw [ha, List.mem_cons] at hd hd'
    rcases hd with rfl | hd <;> rcases hd' with rfl | hd'
    · rfl
    · exact absurd hb.symm (h.vacant i hfree d' hd' hid')
    · exact absurd hb (h.vacant i hfree d hd hid)
    · exact h.unique d hd d' hd' hid hid' hb

/-- Putting an assembly of a piece in the place of the one a delivery found or created. -/
theorem Assembled.of_insert {s s' : Scheduler l} (h : s.Assembled) (vpi : ValidPieceIndex l)
    (hid : a.id = (s.assemblyFor vpi).id) (hcomp : a.completed = false → (s.assemblyFor vpi).completed = false)
    (hf : s'.Fits vpi a) (hl : s'.pieceTracker.haveLocal = s.pieceTracker.haveLocal)
    (hp : s'.chunkTracker.padding = s.chunkTracker.padding)
    (hs : ∀ q, q ≠ vpi → s'.chunkTracker.statesOf q = s.chunkTracker.statesOf q)
    (hk : s'.pieceAssemblies = s.pieceAssemblies.insert vpi.val a)
    (hn : s'.nextAssembly = if s.pieceAssemblies.contains vpi.val then s.nextAssembly else s.nextAssembly + 1)
    (ha : s'.accepted = s.accepted ∨ ∃ d : Delivery, d.assembly = a.id ∧ s'.accepted = d :: s.accepted)
    (hw : s'.writeTasks = s.writeTasks) (hreset : s'.resetTaken = s.resetTaken) : s'.Assembled := by
  have hle : s.nextAssembly ≤ s'.nextAssembly := by
    rw [hn]
    split <;> omega
  -- the number of the assembly: its own, or a new one
  have hnum : a.id < s'.nextAssembly ∧ a.id ∉ (if a.completed then [] else s.writeTasks.map Prod.fst) ∧
      ∀ k b, s.pieceAssemblies.get? k = some b → b.id = a.id → k = vpi.val := by
    cases hg : s.pieceAssemblies.get? vpi.val with
    | some b =>
      have hb : s.assemblyFor vpi = b := by simp [assemblyFor, hg]
      rw [hb] at hid hcomp
      refine ⟨by rw [hid]; exact lt_of_lt_of_le (h.numbered.idLt _ b hg) hle, ?_, fun k b' hb' he => ?_⟩
      · cases hc : a.completed with
        | true => simp
        | false =>
          simp only [Bool.false_eq_true, if_false]
          rw [hid]
          exact h.numbered.unhanded _ b hg (hcomp hc)
      · exact h.numbered.idInj k vpi.val b' b hb' hg (he.trans hid)
    | none =>
      have hb : (s.assemblyFor vpi).id = s.nextAssembly := by simp [assemblyFor, hg]
      rw [hb] at hid
      have hcon : s.pieceAssemblies.contains vpi.val = false := by simp [OrdMap.contains, hg]
      rw [hcon] at hn
      refine ⟨by rw [hid, hn]; simp, ?_, fun k b' hb' he => ?_⟩
      · cases a.completed with
        | true => simp
        | false =>
          simp only [Bool.false_eq_true, if_false]
          intro hmem
          obtain ⟨e, he, hee⟩ := List.mem_map.mp hmem
          have := h.numbered.handedLt e he
          omega
      · have := h.numbered.idLt k b' hb'
        omega
  refine ⟨fun q b hql hg => ?_, fun q hql hg c => ?_, ⟨fun k b hg => ?_, fun k k' b b' hg hg' he => ?_, fun d hd => ?_, ?_, ?_, fun k b hg hc => ?_⟩,
    by rw [hreset]; exact h.neverReset⟩
  · rw [hk, OrdMap.get?_insert] at hg
    split at hg
    · rename_i hq
      obtain rfl : q = vpi := Fin.ext hq
      cases hg
      exact hf
    · rename_i hq
      have hne : q ≠ vpi := fun he => hq (by rw [he])
      rw [hl] at hql
      have hfit := h.open' q b hql hg
      rcases ha with ha | ⟨d, hd, ha⟩
      · exact hfit.of_eq hp (fun c => by rw [hs q hne]) ha
      · refine hfit.of_cons hp (hs q hne) (fun he => hq ?_) ha
        exact hnum.2.2 q.val b hg (he.symm.trans hd)
  · rw [hk, OrdMap.get?_insert] at hg
    split at hg
    · cases hg
    · rename_i hq
      have hne : q ≠ vpi := fun he => hq (by rw [he])
      rw [hl] at hql
      rw [hs q hne]
      have hpad : (s'.chunkTracker.paddingChunks q)[c]? = (s.chunkTracker.paddingChunks q)[c]? := by
        simp only [ChunkTracker.paddingChunks, hp]
      rw [hpad]
      exact h.absent q hql hg c
  · rw [hk, OrdMap.get?_insert] at hg
    split at hg
    · cases hg
      exact hnum.1
    · exact lt_of_lt_of_le (h.numbered.idLt k b hg) hle
  · rw [hk, OrdMap.get?_insert] at hg hg'
    split at hg <;> split at hg'
    · rename_i h1 h2
      rw [h1, h2]
    · rename_i h1 _
      cases hg
      rw [h1]
      exact (hnum.2.2 k' b' hg' he.symm).symm
    · rename_i _ h2
      cases hg'
      rw [h2]
      exact hnum.2.2 k b hg he
    · exact h.numbered.idInj k k' b b' hg hg' he
  · rcases ha with ha | ⟨d', hd', ha⟩
    · rw [ha] at hd
      exact lt_of_lt_of_le (h.numbered.logLt d hd) hle
    · rw [ha, List.mem_cons] at hd
      rcases hd with rfl | hd
      · rw [hd']
        exact hnum.1
      · exact lt_of_lt_of_le (h.numbered.logLt d hd) hle
  · rw [hw]
    exact fun e he => lt_of_lt_of_le (h.numbered.handedLt e he) hle
  · rw [hw]
    exact h.numbered.handedOnce
  · rw [hw]
    rw [hk, OrdMap.get?_insert] at hg
    split at hg
    · cases hg
      have := hnum.2.1
      rw [hc] at this
      simpa using this
    · exact h.numbered.unhanded k b hg hc

/-- A finished piece: every chunk has a source, so its buffer is handed to the write queue, once. -/
theorem Assembled.finishPiece {s : Scheduler l} (h : s.Assembled) (hidx : s.chunkTracker.Indexed False) {vpi : ValidPieceIndex l}
    (hloc : s.pieceTracker.haveLocal vpi = false) (hall : ∀ st ∈ s.chunkTracker.statesOf vpi, st = .received) :
    (s.finishPiece vpi).Assembled := by
  unfold Scheduler.finishPiece
  split
  · exact h
  rename_i a hg
  split
  · exact h
  rename_i hopen
  have hopen' : a.completed = false := Bool.eq_false_iff.mpr hopen
  have hfit := h.open' vpi a hloc hg
  have hfull : ∀ c : Nat, c < l.chunkCount vpi → ∃ src, a.sources[c]? = some (some src) := by
    intro c hc
    rw [← hfit.received c]
    have hlt : c < (s.chunkTracker.statesOf vpi).length := by rw [ChunkTracker.length_statesOf hidx]; exact hc
    rw [List.getElem?_eq_getElem hlt, hall _ (List.getElem_mem hlt)]
  split
  · -- a chunk without a source: impossible
    rename_i hany
    obtain ⟨src, hsrc, hnone⟩ := List.any_eq_true.mp hany
    obtain ⟨c, hc⟩ := List.mem_iff_getElem?.mp hsrc
    obtain ⟨src', hsrc'⟩ := hfull c (by rw [← hfit.length]; exact (List.getElem?_eq_some_iff.mp hc).1)
    rw [hc] at hsrc'
    cases hsrc'
    cases hnone
  · have hnew := h.numbered.unhanded _ a hg hopen'
    have hget : ∀ k b, (s.pieceAssemblies.insert vpi.val { a with completed := true, buf := [] }).get? k = some b →
        (k = vpi.val ∧ b = { a with completed := true, buf := [] }) ∨ (k ≠ vpi.val ∧ s.pieceAssemblies.get? k = some b) := by
      intro k b hb
      rw [OrdMap.get?_insert] at hb
      split at hb
      · rename_i hk
        cases hb
        exact Or.inl ⟨hk, rfl⟩
      · rename_i hk
        exact Or.inr ⟨hk, hb⟩
    refine ⟨fun q b hql hb => ?_, fun q hql hb c => ?_,
      ⟨fun k b hb => ?_, fun k k' b b' hb hb' he => ?_, h.numbered.logLt, fun e he => ?_, ?_, fun k b hb hc => ?_⟩, h.neverReset⟩
    · rcases hget _ _ hb with ⟨hq, rfl⟩ | ⟨_, hb⟩
      · obtain rfl : q = vpi := Fin.ext hq
        exact ⟨hfit.length, hfit.received, hfit.padding, fun _ => hfull, fun hc => (by cases hc), fun hc => (by cases hc),
          fun hc => (by cases hc), hfit.vacant, hfit.unique⟩
      · exact (h.open' q b hql hb).of_eq rfl (fun _ => Iff.rfl) rfl
    · simp only [OrdMap.get?_insert] at hb
      split at hb
      · cases hb
      · exact h.absent q hql hb c
    · rcases hget _ _ hb with ⟨_, rfl⟩ | ⟨_, hb⟩
      · exact h.numbered.idLt _ a hg
      · exact h.numbered.idLt k b hb
    · rcases hget _ _ hb with ⟨hk, rfl⟩ | ⟨_, hb⟩ <;> rcases hget _ _ hb' with ⟨hk', rfl⟩ | ⟨_, hb'⟩
      · rw [hk, hk']
      · rw [hk]
        exact h.numbered.idInj _ _ a b' hg hb' he
      · rw [hk']
        exact h.numbered.idInj _ _ b a hb hg he
      · exact h.numbered.idInj k k' b b' hb hb' he
    · rcases List.mem_cons.mp he with rfl | he
      · exact h.numbered.idLt _ a hg
      · exact h.numbered.handedLt e he
    · rw [List.map_cons]
      exact List.nodup_cons.mpr ⟨hnew, h.numbered.handedOnce⟩
    · rcases hget _ _ hb with ⟨_, rfl⟩ | ⟨hk, hb⟩
      · cases hc
      · rw [List.map_cons, List.mem_cons, not_or]
        refine ⟨fun he => hk ?_, h.numbered.unhanded k b hb hc⟩
        exact h.numbered.idInj k vpi.val b a hb hg he

theorem Assembled.deliver {s : Scheduler l} (h : s.Assembled) (hidx : s.chunkTracker.Indexed False) {vpi : ValidPieceIndex l}
    (hloc : s.pieceTracker.haveLocal vpi = false) (pid ip : Nat) (hi : i < l.chunkCount vpi)
    (hlen : data.length = chunkLength vpi i) : (s.deliver vpi pid ip (i * chunkSize) data).Assembled := by
  have hfit := fits_assemblyFor h hloc
  have hnext : ∃ n, (if s.pieceAssemblies.contains vpi.val then s else { s with nextAssembly := s.nextAssembly + 1 }) =
        { s with nextAssembly := n } ∧ n = if s.pieceAssemblies.contains vpi.val then s.nextAssembly else s.nextAssembly + 1 := by
    split
    · exact ⟨s.nextAssembly, rfl, rfl⟩
    · exact ⟨_, rfl, rfl⟩
  obtain ⟨n, hn, hn'⟩ := hnext
  have hstates := ChunkTracker.statesOf_markReceived hidx
    { pieceIndex := vpi, chunkIndex := i, size := data.length, offset := i * chunkSize } hi
  have hpad := ChunkTracker.padding_markReceived s.chunkTracker
    { pieceIndex := vpi, chunkIndex := i, size := data.length, offset := i * chunkSize }
  have hdone := ChunkTracker.markReceived_done hidx
    { pieceIndex := vpi, chunkIndex := i, size := data.length, offset := i * chunkSize } hi
  have hidx' := hidx.markReceived { pieceIndex := vpi, chunkIndex := i, size := data.length, offset := i * chunkSize }
    (fun hf => hf.elim)
  have hother : ∀ q, q ≠ vpi → (s.chunkTracker.markReceived
      { pieceIndex := vpi, chunkIndex := i, size := data.length, offset := i * chunkSize }).1.statesOf q =
        s.chunkTracker.statesOf q := by
    intro q hq
    rw [hstates q, if_neg hq]
  have hself := hstates vpi
  rw [if_pos rfl] at hself
  unfold Scheduler.deliver assemble
  simp only [hn, Nat.mul_div_cancel i (show 0 < chunkSize by decide)]
  split
  · rename_i hacc
    generalize (if s.chunkTracker.endgame then cancelOutstanding s.peers pid vpi.val (i * chunkSize) data.length else s.peers) = peers
    have hmid : ({ s with
        nextAssembly := n
        pieceAssemblies := s.pieceAssemblies.insert vpi.val { s.assemblyFor vpi with
          sources := (s.assemblyFor vpi).sources.set i (some (.peer ip))
          buf := overwrite (s.assemblyFor vpi).buf (i * chunkSize) data }
        accepted := { assembly := (s.assemblyFor vpi).id, begin := i * chunkSize, ip := ip, data := data } :: s.accepted
        peers := peers
        chunkTracker := (s.chunkTracker.markReceived
          { pieceIndex := vpi, chunkIndex := i, size := data.length, offset := i * chunkSize }).1 } : Scheduler l).Assembled :=
      h.of_insert (a := { s.assemblyFor vpi with
          sources := (s.assemblyFor vpi).sources.set i (some (.peer ip))
          buf := overwrite (s.assemblyFor vpi).buf (i * chunkSize) data }) vpi rfl (fun hc => hc)
        (hfit.accept hidx hi hlen hacc hpad hself rfl) rfl hpad hother rfl hn' (Or.inr ⟨_, rfl, rfl⟩) rfl rfl
    split
    · rename_i hd
      exact hmid.finishPiece hidx' hloc (hdone.mp hd)
    · exact hmid
  · rename_i hacc
    -- the chunk was there before, so marking it changes no state
    have hsame : (s.chunkTracker.statesOf vpi).set i .received = s.chunkTracker.statesOf vpi := by
      have hrec := received_of_not_accepts hfit hi hlen (Bool.eq_false_iff.mpr hacc)
      apply List.ext_getElem?
      intro c
      rw [List.getElem?_set]
      split
      · rename_i hic
        subst hic
        rw [if_pos (List.getElem?_eq_some_iff.mp hrec).1, hrec]
      · rfl
    have hmid : ({ s with
        nextAssembly := n
        pieceAssemblies := s.pieceAssemblies.insert vpi.val (s.assemblyFor vpi)
        chunkTracker := (s.chunkTracker.markReceived
          { pieceIndex := vpi, chunkIndex := i, size := data.length, offset := i * chunkSize }).1 } : Scheduler l).Assembled := by
      refine h.of_insert vpi rfl (fun hc => hc) (hfit.of_eq hpad (fun c => ?_) rfl) rfl hpad hother rfl hn' (Or.inl rfl) rfl rfl
      simp only
      rw [hself, hsame]
    split
    · rename_i hd
      exact hmid.finishPiece hidx' hloc (hdone.mp hd)
    · exact hmid

/-! ## Every event -/

/-- Events that do not touch the chunk tracker or the assemblies. -/
theorem Assembled.of_same {s s' : Scheduler l} (h : s.Assembled) (hl : s'.pieceTracker.haveLocal = s.pieceTracker.haveLocal)
    (hc : s'.chunkTracker = s.chunkTracker) (hk : s'.pieceAssemblies = s.pieceAssemblies) (hn : s'.nextAssembly = s.nextAssembly)
    (ha : s'.accepted = s.accepted) (hw : s'.writeTasks = s.writeTasks) (hreset : s'.resetTaken = s.resetTaken) : s'.Assembled :=
  h.of_frame hl (by rw [hc]) (fun q c => by rw [hc]) (fun k => Or.inl (by rw [hk])) hn ha hw hreset

theorem Assembled.of_drives {s s' : Scheduler l} (h : s.Assembled) (hd : Drives s s') : s'.Assembled := by
  have hrest := hd.rest
  obtain ⟨peers, t, ct, heq⟩ := hrest
  refine h.of_frame hd.haveLocal hd.padding hd.received (fun k => Or.inl ?_) ?_ ?_ ?_ ?_ <;> rw [heq]

/-- Freeing requests receives nothing. -/
theorem received_freed {t t' : ChunkTracker l} {sel : Nat → Nat → Bool} {q : ValidPieceIndex l}
    (hst : t'.statesOf q = (t.statesOf q).map (PieceChunks.freedState sel)) (c : Nat) :
    (t'.statesOf q)[c]? = some .received ↔ (t.statesOf q)[c]? = some .received := by
  rw [hst, List.getElem?_map, Option.map_eq_some_iff]
  constructor
  · rintro ⟨st, hs, hfr⟩
    rw [hs, ChunkTracker.freedState_eq_received.mp hfr]
  · intro hs
    exact ⟨_, hs, ChunkTracker.freedState_eq_received.mpr rfl⟩

theorem Assembled.releaseChokedRequests {s : Scheduler l} (h : s.Assembled) (hs : s.Sound) (pid : Nat) :
    (s.releaseChokedRequests pid).Assembled := by
  unfold Scheduler.releaseChokedRequests
  split
  · exact h
  rename_i peer hg
  simp only
  generalize s.peers.insert pid _ = peers
  have hm : ({ s with peers := peers } : Scheduler l).Marked := hs.toMarked.of_eq rfl rfl rfl rfl
  obtain ⟨t, ct, hfold, _, hrel, hl, _⟩ := foldl_giveBack_spec pid peer.outstanding hm (hs.listed pid peer hg)
  simp only [hfold]
  exact h.of_frame hl hrel.padding hrel.received (fun _ => Or.inl rfl) rfl rfl rfl rfl

theorem Assembled.applyRequestReject {s : Scheduler l} (h : s.Assembled) (hs : s.Sound) (pid : Nat) (key : Request)
    (pipeline : Nat × Nat) (now : Nat) : (s.applyRequestReject pid key pipeline now).1.Assembled := by
  unfold Scheduler.applyRequestReject
  split
  · exact h
  rename_i peer hg
  split
  · exact h.of_same rfl rfl rfl rfl rfl rfl rfl
  rename_i i hidx
  obtain ⟨r, hr, hkey⟩ := findIdx?_eq_some_mem hidx
  obtain rfl : r = key := by simpa using hkey
  have hreq := hs.listed pid peer hg r (List.mem_of_getElem? hr)
  simp only
  generalize s.peers.insert pid _ = peers
  have hm : ({ s with peers := peers } : Scheduler l).Marked := hs.toMarked.of_eq rfl rfl rfl rfl
  obtain ⟨_, hrel, _, t, ct, heq, hl⟩ := giveBack_spec hm pid hreq
  rw [heq] at hrel
  rw [heq]
  exact h.of_frame hl hrel.padding hrel.received (fun _ => Or.inl rfl) rfl rfl rfl rfl

theorem Assembled.reclaim {s : Scheduler l} (h : s.Assembled) (now timeout : Nat) (pipeline : Nat × Nat) :
    (s.reclaim now timeout pipeline).Assembled := by
  obtain ⟨hl, _⟩ := clearInFlightAll_spec ((s.chunkTracker.reclaimStale now timeout).2.map ReclaimedChunk.piece).dedup s.pieceTracker
  have hst := fun q => ChunkTracker.statesOf_reclaimStale s.chunkTracker now timeout q
  refine h.of_frame hl ?_ (fun q c => received_freed (hst q).1 c) (fun _ => Or.inl rfl) rfl rfl rfl rfl
  exact (hst ⟨0, Nat.succ_pos _⟩).2

theorem Assembled.disconnect {s : Scheduler l} (h : s.Assembled) (pid : Nat) : (s.disconnect pid).Assembled := by
  unfold Scheduler.disconnect
  split
  · exact h
  rename_i peer hg
  unfold releasePeerSchedulerState
  have hst := fun q => ChunkTracker.statesOf_releasePeer s.chunkTracker pid q
  obtain ⟨t, asm, hfold, hl, _, hasm⟩ := foldl_releasePiece_spec (s.chunkTracker.releasePeer pid).2
    { s with
      peers := s.peers.erase pid
      pieceTracker := s.pieceTracker.removePeerBitfield peer.bitfield
      chunkTracker := (s.chunkTracker.releasePeer pid).1 }
  simp only
  rw [hfold]
  refine h.of_frame hl ?_ (fun q c => received_freed (hst q).1 c) hasm rfl rfl rfl rfl
  exact (hst ⟨0, Nat.succ_pos _⟩).2

theorem Assembled.processVerifyResult {s : Scheduler l} (h : s.Assembled) (vr : Webseed.VerifyResult) (sent : Nat → Bool) :
    (s.processVerifyResult vr sent).Assembled := by
  unfold Scheduler.processVerifyResult
  split
  · exact h
  rename_i vpi hv
  have hval := validatePiece_ok hv
  simp only
  split
  · exact h.of_same (by simp) rfl rfl rfl rfl rfl rfl
  split
  · refine h.of_restart vpi (fun q _ => by simp) ?_ (ChunkTracker.statesOf_resetPiece _ vpi) (by rw [hval]) rfl rfl rfl rfl
    exact ChunkTracker.padding_resetPiece ..
  · refine h.of_restart vpi (fun q hq => by simp [Function.update_of_ne hq]) ?_ (ChunkTracker.statesOf_forgetPiece _ vpi)
      (by rw [hval]) rfl rfl rfl rfl
    exact ChunkTracker.padding_forgetPiece ..

theorem Assembled.receivePiece {s : Scheduler l} (h : s.Assembled) (hs : s.Sound) (pid index begin : Nat) (data : List UInt8)
    (maxOutstanding : Nat) : (s.receivePiece pid index begin data maxOutstanding).Assembled := by
  rcases receivePiece_cases hs pid index begin data maxOutstanding with
    heq | ⟨peer, peer', _, _, heq⟩ | ⟨peer, peer', j, vpi, i, _, hi, _, hlen, _, hcase⟩
  · rw [heq]
    exact h
  · rw [heq]
    exact h.of_same rfl rfl rfl rfl rfl rfl rfl
  have hmid : ({ s with peers := s.peers.insert pid peer' } : Scheduler l).Assembled := h.of_same rfl rfl rfl rfl rfl rfl rfl
  rcases hcase with ⟨_, heq⟩ | ⟨hloc, heq⟩
  · rw [heq]
    exact hmid
  · rw [heq]
    exact hmid.deliver hs.indexed hloc pid peer.ip hi hlen

/-- Forgetting pieces and dropping their assemblies. -/
theorem Assembled.foldl_forget (ps : List Nat) {s : Scheduler l} (h : s.Assembled) :
    (ps.foldl (fun s idx =>
      { s with
        chunkTracker := match l.validatePiece idx with
          | .error _ => s.chunkTracker
          | .ok vpi => s.chunkTracker.forgetPiece vpi
        pieceAssemblies := s.pieceAssemblies.erase idx }) s).Assembled := by
  induction ps generalizing s with
  | nil => exact h
  | cons p ps ih =>
    rw [List.foldl_cons]
    cases hv : l.validatePiece p with
    | error e =>
      -- no piece has this index, so the assemblies of the pieces stay
      refine ih ⟨fun q a hql hg => ?_, fun q hql hg c => ?_, h.numbered.of_sub (fun k a hg => ?_) rfl rfl rfl, h.neverReset⟩
      · simp only [OrdMap.get?_erase] at hg
        split at hg
        · cases hg
        · exact (h.open' q a hql hg).of_eq rfl (fun _ => Iff.rfl) rfl
      · have hne : q.val ≠ p := by
          rintro rfl
          unfold Lengths.validatePiece at hv
          rw [dif_pos (Nat.le_of_lt_succ q.isLt)] at hv
          cases hv
        simp only [OrdMap.get?_erase_of_ne _ hne] at hg
        exact h.absent q hql hg c
      · simp only [OrdMap.get?_erase] at hg
        split at hg
        · cases hg
        · exact hg
    | ok vpi =>
      have hval := validatePiece_ok hv
      refine ih (h.of_restart vpi (fun q _ => rfl) ?_ (ChunkTracker.statesOf_forgetPiece _ vpi) (by rw [hval]) rfl rfl rfl rfl)
      exact ChunkTracker.padding_forgetPiece ..

theorem Assembled.select {s : Scheduler l} (h : s.Assembled) (wanted : List Bool) :
    (dropUnwantedPartialPieces { s with pieceTracker := s.pieceTracker.setWanted wanted }).Assembled := by
  have hmid : ({ s with pieceTracker := s.pieceTracker.setWanted wanted } : Scheduler l).Assembled :=
    h.of_same (PieceTracker.flags_setWanted s.pieceTracker wanted).1 rfl rfl rfl rfl rfl rfl
  unfold dropUnwantedPartialPieces
  exact hmid.foldl_forget _

theorem Assembled.scheduleWebseedWorkers {s : Scheduler l} (h : s.Assembled) (freeWorkers perJob : Nat) (servable : List Nat → Bool) :
    (s.scheduleWebseedWorkers freeWorkers perJob servable).Assembled := by
  have hone : ∀ (p : Nat) (s : Scheduler l), s.Assembled → (s.startWebseed p).Assembled := by
    intro p s hs
    unfold Scheduler.startWebseed
    split
    · exact hs
    · exact hs.of_same (by simp) rfl rfl rfl rfl rfl rfl
  have hbatch : ∀ (batch : List Nat) (s : Scheduler l), s.Assembled → (batch.foldl Scheduler.startWebseed s).Assembled := by
    intro batch
    induction batch with
    | nil => exact fun s hs => hs
    | cons p rest ih => exact fun s hs => ih _ (hone p s hs)
  unfold Scheduler.scheduleWebseedWorkers
  simp only
  generalize (Webseed.contiguousWebseedBatches _ perJob).take freeWorkers = batches
  induction batches generalizing s with
  | nil => exact h
  | cons b rest ih => exact ih (hbatch _ s h)

/-- Every event keeps the assemblies in step with the chunk tracker. -/
theorem Assembled.apply {s : Scheduler l} (h : s.Assembled) (hs : s.Sound) (e : SchedulerEvent l) : (e.apply s).Assembled := by
  cases e with
  | connect pid ip maxOutstanding | retune pid peer =>
    simp only [SchedulerEvent.apply]
    split
    · exact h
    · exact h.of_same rfl rfl rfl rfl rfl rfl rfl
  | refresh op =>
    simp only [SchedulerEvent.apply]
    split
    · rename_i hop
      exact h.of_same (flags_refreshes hop s.pieceTracker).1 rfl rfl rfl rfl rfl rfl
    · exact h
  | drivePeer env pid => exact h.of_drives (hs.drivePeer env pid).2
  | driveRequests env pids => exact h.of_drives (hs.driveRequests env pids).2
  | receivePiece pid index begin data maxOutstanding => exact h.receivePiece hs pid index begin data maxOutstanding
  | releaseChokedRequests pid => exact h.releaseChokedRequests hs pid
  | applyRequestReject pid key pipeline now => exact h.applyRequestReject hs pid key pipeline now
  | reclaim now timeout pipeline => exact h.reclaim now timeout pipeline
  | disconnect pid => exact h.disconnect pid
  | verifyResult vr sent => exact h.processVerifyResult vr sent
  | webseedResult vr sent =>
    refine processVerifyResult (s := { s with webseedInflight := _ }) ?_ vr sent
    exact h.of_same rfl rfl rfl rfl rfl rfl rfl
  | select wanted => exact h.select wanted
  | scheduleWebseedWorkers freeWorkers perJob servable => exact h.scheduleWebseedWorkers freeWorkers perJob servable
  | releaseWebseedInflight =>
    exact h.of_same (clearInFlightAll_spec s.webseedInflight s.pieceTracker).1 rfl rfl rfl rfl rfl rfl
  | shuffleWebseeds order =>
    simp only [SchedulerEvent.apply]
    split
    · exact h.of_same rfl rfl rfl rfl rfl rfl rfl
    · exact h

theorem assembled_start (t : PieceTracker l) (ranges : List (Nat × Nat)) : (Scheduler.start t ranges).Assembled where
  open' := fun _ _ _ hg => by cases hg
  absent := fun q _ _ c => by
    rw [ChunkTracker.statesOf_of_untracked rfl, ChunkTracker.getElem?_initialStates]
    cases ((Scheduler.start t ranges).chunkTracker.paddingChunks q)[c]? with
    | none => simp
    | some b => cases b <;> simp
  numbered := ⟨fun _ _ hg => (by cases hg), fun _ _ _ _ hg => (by cases hg), fun _ hd => (by cases hd), fun _ he => (by cases he),
    List.nodup_nil, fun _ _ hg => (by cases hg)⟩
  neverReset := rfl

end Scheduler

end Risuko
