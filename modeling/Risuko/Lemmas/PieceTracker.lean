import Risuko.Piece.PieceTracker
import Risuko.Lib.Lists

/-!
# The piece tracker: running summaries and the cached order

Two invariants, each kept by every call. `Settled` says that the count, the byte total and the bitmap agree with a full scan
of the flags. `Ordered` says what the cached order may leave out and what the dead prefix may hide: nothing that is wanted and
not local is missing from the list unless it is going to be rebuilt, and nothing in the dead prefix is requestable.
-/

namespace Risuko

namespace PieceTracker

variable {l : Lengths}

/-! ## Scans as sums -/

/-- The share of a piece in the count of requestable pieces. -/
def requestShare (wanted haveLocal inFlight : ValidPieceIndex l → Bool) (i : ValidPieceIndex l) : Nat :=
  if wanted i && !haveLocal i && !inFlight i then 1 else 0

/-- The share of a piece in the bytes left. -/
def leftShare (wanted haveLocal : ValidPieceIndex l → Bool) (i : ValidPieceIndex l) : Nat :=
  if wanted i && !haveLocal i then l.pieceLengthOf i else 0

theorem sum_filter_finRange {n : Nat} (p : Fin n → Bool) (f : Fin n → Nat) :
    (((List.finRange n).filter p).map f).sum = ∑ i, if p i then f i else 0 := by
  rw [← List.sum_ofFn, List.ofFn_eq_map]
  induction List.finRange n with
  | nil => rfl
  | cons a rest ih =>
    rw [List.filter_cons]
    split <;> rename_i h <;> simp [h, ih]

theorem length_filter_finRange {n : Nat} (p : Fin n → Bool) :
    ((List.finRange n).filter p).length = ∑ i, if p i then 1 else 0 := by
  rw [← sum_filter_finRange p (fun _ => 1)]
  simp

theorem scanBytesLeft_eq (t : PieceTracker l) : t.scanBytesLeft = ∑ i, leftShare t.wanted t.haveLocal i := by
  unfold scanBytesLeft bytesOf
  rw [sum_filter_finRange]
  rfl

/-- A total length is so many whole pieces and the last one. -/
theorem mul_add_lastLength {t p q : Nat} (ht : 0 < t) (hp : 0 < p) (hq : q + 1 = divCeil t p) : q * p + lastLength t p = t := by
  have hd := Nat.div_add_mod t p
  have hr := Nat.mod_lt t hp
  unfold divCeil at hq
  unfold lastLength
  split
  · rename_i hz
    obtain ⟨e, he⟩ : ∃ e, t / p = e + 1 := by
      rcases Nat.eq_zero_or_pos (t / p) with h0 | h0
      · rw [h0, hz] at hd
        omega
      · exact ⟨t / p - 1, by omega⟩
    have ht' : t + p - 1 = p * (e + 1) + (p - 1) := by
      rw [he, hz] at hd
      omega
    rw [ht', Nat.mul_add_div hp, Nat.div_eq_of_lt (by omega)] at hq
    rw [he, hz] at hd
    obtain rfl : q = e := by omega
    rw [← hd]
    ring
  · rename_i hz
    have ht' : t + p - 1 = p * (t / p + 1) + (t % p - 1) := by
      rw [Nat.mul_add, Nat.mul_one]
      omega
    rw [ht', Nat.mul_add_div hp, Nat.div_eq_of_lt (by omega : t % p - 1 < p)] at hq
    obtain rfl : q = t / p := by omega
    rw [Nat.mul_comm]
    exact hd

/-- The pieces together hold the whole torrent. -/
theorem sum_pieceLengthOf (l : Lengths) : ∑ i, l.pieceLengthOf i = l.totalLength := by
  let len : Nat → Nat := fun k => if k = l.lastPieceIndex then l.lastPieceLength else l.pieceLength
  calc ∑ i, l.pieceLengthOf i
    _ = ∑ k ∈ Finset.range (l.lastPieceIndex + 1), len k := Fin.sum_univ_eq_sum_range len _
    _ = ∑ k ∈ Finset.range l.lastPieceIndex, l.pieceLength + l.lastPieceLength := by
      rw [Finset.sum_range_succ]
      congr 1
      · refine Finset.sum_congr rfl (fun k hk => ?_)
        have := Finset.mem_range.mp hk
        simp only [len]
        rw [if_neg (by omega)]
      · simp [len]
    _ = l.lastPieceIndex * l.pieceLength + l.lastPieceLength := by simp
    _ = l.totalLength := by
      rw [l.last_length]
      exact mul_add_lastLength l.total_pos l.piece_pos l.last_index

/-! ## The bitmap -/

theorem length_markNeeded (t : PieceTracker l) (i : ValidPieceIndex l) : (t.markNeeded i).needed.length = t.needed.length := by
  simp [markNeeded]

theorem div_lt_pieceBitfieldBytes (i : ValidPieceIndex l) : i.val / 8 < l.pieceBitfieldBytes := by
  have := i.isLt
  unfold Lengths.pieceBitfieldBytes divCeil
  omega

/-- `mark_needed` sets one bit to what the flags of its piece say and leaves the others. -/
theorem bitAt_markNeeded {t : PieceTracker l} (hlen : t.needed.length = l.pieceBitfieldBytes) (i : ValidPieceIndex l) (j : Nat) :
    bitAt (t.markNeeded i).needed j = if j = i.val then t.isUseful i else bitAt t.needed j := by
  have hi : i.val / 8 < t.needed.length := by rw [hlen]; exact div_lt_pieceBitfieldBytes i
  have hget : t.needed.getD (i.val / 8) 0 = t.needed[i.val / 8] := by simp [hi]
  unfold markNeeded
  simp only
  rw [bitAt_set hi, hget]
  by_cases hdiv : j / 8 = i.val / 8
  · have hbit : bitAt t.needed j = byteHas t.needed[i.val / 8] j :=
      bitAt_of_getElem? (by rw [hdiv]; exact List.getElem?_eq_getElem hi)
    rw [if_pos hdiv, hbit]
    have heq : i.val % 8 = j % 8 ↔ j = i.val := by omega
    by_cases hj : j = i.val
    · have hm := heq.mpr hj
      rw [if_pos hj]
      split
      · rename_i hu
        rw [byteHas_or_mask]
        simp only [hm, decide_true, Bool.or_true]
        exact hu.symm
      · rename_i hu
        rw [byteHas_and_not_mask]
        simp only [hm, ne_eq, not_true_eq_false, decide_false, Bool.and_false]
        exact (Bool.not_eq_true _ ▸ hu : (t.wanted i && !t.haveLocal i) = false).symm
    · have hm : ¬ i.val % 8 = j % 8 := fun h => hj (heq.mp h)
      rw [if_neg hj]
      split
      · rw [byteHas_or_mask]
        simp [hm]
      · rw [byteHas_and_not_mask]
        simp [hm]
  · have hj : j ≠ i.val := fun h => hdiv (by rw [h])
    rw [if_neg hdiv, if_neg hj]

/-- Bit `j` says whether piece `j` is wanted and not local. -/
def NeededExact (t : PieceTracker l) : Prop :=
  t.needed.length = l.pieceBitfieldBytes ∧ ∀ j, bitAt t.needed j = true ↔ ∃ h : j < l.totalPieces, t.isUseful ⟨j, h⟩ = true

/-- Marking the one piece whose flags changed makes the bitmap exact again. -/
theorem NeededExact.markNeeded {t : PieceTracker l} {i : ValidPieceIndex l} (hlen : t.needed.length = l.pieceBitfieldBytes)
    (h : ∀ j, j ≠ i.val → (bitAt t.needed j = true ↔ ∃ h : j < l.totalPieces, t.isUseful ⟨j, h⟩ = true)) :
    (t.markNeeded i).NeededExact := by
  refine ⟨by rw [length_markNeeded, hlen], fun j => ?_⟩
  rw [bitAt_markNeeded hlen]
  split
  · rename_i hj
    subst hj
    exact ⟨fun hu => ⟨i.isLt, hu⟩, fun ⟨_, hu⟩ => hu⟩
  · rename_i hj
    exact h j hj

/-- A fold of `mark_needed` marks the bits of the listed pieces. -/
theorem foldl_markNeeded (is : List (ValidPieceIndex l)) (t : PieceTracker l) (hlen : t.needed.length = l.pieceBitfieldBytes) :
    ∃ bytes, is.foldl PieceTracker.markNeeded t = { t with needed := bytes } ∧ bytes.length = l.pieceBitfieldBytes ∧
      ∀ j : ValidPieceIndex l, bitAt bytes j.val = if j ∈ is then t.isUseful j else bitAt t.needed j.val := by
  induction is generalizing t with
  | nil => exact ⟨t.needed, rfl, hlen, by simp⟩
  | cons i rest ih =>
    obtain ⟨bytes, heq, hb, hbit⟩ := ih (t.markNeeded i) (by rw [length_markNeeded, hlen])
    refine ⟨bytes, by rw [List.foldl_cons, heq]; rfl, hb, fun j => ?_⟩
    rw [hbit j, bitAt_markNeeded hlen]
    have hu : (t.markNeeded i).isUseful j = t.isUseful j := rfl
    by_cases hj : j ∈ rest
    · simp [hj, hu]
    · by_cases hij : j = i
      · subst hij
        simp [hj]
      · simp [hij, hj, Fin.val_ne_of_ne hij]

theorem bitAt_foldl_out (is : List (ValidPieceIndex l)) (t : PieceTracker l) (hlen : t.needed.length = l.pieceBitfieldBytes)
    {j : Nat} (hj : l.totalPieces ≤ j) : bitAt (is.foldl PieceTracker.markNeeded t).needed j = bitAt t.needed j := by
  induction is generalizing t with
  | nil => rfl
  | cons i rest ih =>
    have hne : j ≠ i.val := by have := i.isLt; omega
    rw [List.foldl_cons, ih (t.markNeeded i) (by rw [length_markNeeded, hlen]), bitAt_markNeeded hlen, if_neg hne]

/-- `rebuild_needed` makes the bitmap exact and changes nothing else. -/
theorem rebuildNeeded_spec (t : PieceTracker l) :
    t.rebuildNeeded.NeededExact ∧ ∃ bytes, t.rebuildNeeded = { t with needed := bytes } := by
  have hlen : ({ t with needed := List.replicate l.pieceBitfieldBytes 0 } : PieceTracker l).needed.length =
      l.pieceBitfieldBytes := by simp
  obtain ⟨bytes, heq, hb, hbit⟩ := foldl_markNeeded (List.finRange l.totalPieces) _ hlen
  have hre : t.rebuildNeeded = { t with needed := bytes } := heq
  refine ⟨⟨by rw [hre]; exact hb, fun j => ?_⟩, bytes, hre⟩
  by_cases hj : j < l.totalPieces
  · have := hbit ⟨j, hj⟩
    rw [if_pos (List.mem_finRange _)] at this
    rw [hre]
    simp only at this ⊢
    rw [this]
    exact ⟨fun hu => ⟨hj, hu⟩, fun ⟨_, hu⟩ => hu⟩
  · have hout := bitAt_foldl_out (List.finRange l.totalPieces) _ hlen (Nat.le_of_not_lt hj)
    have : bitAt t.rebuildNeeded.needed j = false := by
      unfold rebuildNeeded
      rw [hout]
      exact bitAt_replicate_zero _ _
    rw [this]
    simp [hj]

/-! ## The summaries -/

/-- The count, the byte total and the bitmap agree with a scan of the flags, and no subtraction went below zero. -/
structure Settled (t : PieceTracker l) : Prop where
  requestable : t.requestable = ∑ i, requestShare t.wanted t.haveLocal t.inFlight i
  left : t.left = ∑ i, leftShare t.wanted t.haveLocal i
  needed : t.NeededExact
  exact : t.underflow = false

/-! ## Flags -/

section Flags

variable (t : PieceTracker l) (idx : ValidPieceIndex l)

@[simp] theorem haveLocal_settle (before : Bool) : (t.settle idx before).haveLocal = t.haveLocal := by
  unfold settle; split <;> rfl

@[simp] theorem inFlight_settle (before : Bool) : (t.settle idx before).inFlight = t.inFlight := by
  unfold settle; split <;> rfl

@[simp] theorem haveLocal_markInFlight : (t.markInFlight idx).haveLocal = t.haveLocal := by
  simp [markInFlight]

@[simp] theorem inFlight_markInFlight : (t.markInFlight idx).inFlight = Function.update t.inFlight idx true := by
  simp [markInFlight]

@[simp] theorem haveLocal_clearInFlight : (t.clearInFlight idx).haveLocal = t.haveLocal := by
  unfold clearInFlight
  simp only [haveLocal_settle]
  split <;> rfl

@[simp] theorem inFlight_clearInFlight : (t.clearInFlight idx).inFlight = Function.update t.inFlight idx false := by
  unfold clearInFlight
  simp only [inFlight_settle]
  split <;> rfl

@[simp] theorem haveLocal_setLocal (have' : Bool) : (t.setLocal idx have').haveLocal = Function.update t.haveLocal idx have' := by
  have hkeep : (t.settleLeft idx have').haveLocal = t.haveLocal := by
    unfold settleLeft
    split
    · simp only
      split <;> rfl
    · rfl
  unfold setLocal
  simp only [haveLocal_settle]
  split
  · exact congrArg (fun f => Function.update f idx have') hkeep
  · exact congrArg (fun f => Function.update f idx have') hkeep

theorem inFlight_setLocal_true : (t.setLocal idx true).inFlight = Function.update t.inFlight idx false := by
  have hkeep : (t.settleLeft idx true).inFlight = t.inFlight := by
    unfold settleLeft
    split <;> rfl
  unfold setLocal
  simp only [inFlight_settle, if_true]
  exact congrArg (fun f => Function.update f idx false) hkeep

@[simp] theorem haveLocal_nextRequestable (bitfield : List UInt8) (cursor : Nat) :
    (t.nextRequestable bitfield cursor).1.haveLocal = t.haveLocal := by
  unfold nextRequestable
  simp only
  split <;> rfl

@[simp] theorem inFlight_nextRequestable (bitfield : List UInt8) (cursor : Nat) :
    (t.nextRequestable bitfield cursor).1.inFlight = t.inFlight := by
  unfold nextRequestable
  simp only
  split <;> rfl

@[simp] theorem flags_setWanted (wanted : List Bool) :
    (t.setWanted wanted).haveLocal = t.haveLocal ∧ (t.setWanted wanted).inFlight = t.inFlight := by
  unfold setWanted
  split
  · rename_i hlen
    obtain ⟨_, bytes, hre⟩ := rebuildNeeded_spec
      { t with wanted := fun i => wanted.get ⟨i.val, by rw [hlen]; exact i.isLt⟩ }
    rw [hre]
    exact ⟨rfl, rfl⟩
  · exact ⟨rfl, rfl⟩

end Flags

/-- A call that keeps the flags and the summaries keeps their agreement. -/
theorem Settled.of_eq {t t' : PieceTracker l} (h : t.Settled) (hl : t'.haveLocal = t.haveLocal) (hw : t'.wanted = t.wanted)
    (hf : t'.inFlight = t.inFlight) (hr : t'.requestable = t.requestable) (hleft : t'.left = t.left)
    (hn : t'.needed = t.needed) (hu : t'.underflow = t.underflow) : t'.Settled where
  requestable := by rw [hr, h.requestable, hw, hl, hf]
  left := by rw [hleft, h.left, hw, hl]
  needed := by
    have := h.needed
    unfold NeededExact isUseful at this ⊢
    rw [hn, hl, hw]
    exact this
  exact := by rw [hu, h.exact]

/-- `settle` changes the count, and the ghost field, only. -/
theorem settle_eq (t : PieceTracker l) (i : ValidPieceIndex l) (before : Bool) :
    ∃ n u, t.settle i before = { t with requestable := n, underflow := u } := by
  unfold settle
  split
  · exact ⟨_, _, rfl⟩
  · exact ⟨_, _, rfl⟩
  · exact ⟨_, _, rfl⟩

/-- `settle` makes the count exact again after the flags of one piece changed: `share` is the share of each piece before. -/
theorem settle_spec {t : PieceTracker l} {i : ValidPieceIndex l} {before : Bool} (share : ValidPieceIndex l → Nat)
    (hreq : t.requestable = ∑ j, share j)
    (hoff : ∀ j, j ≠ i → share j = requestShare t.wanted t.haveLocal t.inFlight j)
    (hi : share i = if before then 1 else 0) :
    (t.settle i before).requestable = ∑ j, requestShare t.wanted t.haveLocal t.inFlight j ∧
      (t.settle i before).underflow = t.underflow := by
  have hsum := sum_add_of_eq_off i hoff
  have hle : share i ≤ ∑ j, share j := Finset.single_le_sum (fun _ _ => Nat.zero_le _) (Finset.mem_univ i)
  have hnow : requestShare t.wanted t.haveLocal t.inFlight i = if t.countsRequestable i then 1 else 0 := rfl
  rw [hnow] at hsum
  rw [hi, ← hreq] at hsum hle
  unfold settle
  cases before <;> cases hc : t.countsRequestable i <;>
    simp only [hc, Bool.false_eq_true, if_false, if_true, and_true] at hsum hle ⊢
  · omega
  · omega
  · refine ⟨by omega, ?_⟩
    have hno : decide (t.requestable < 1) = false := decide_eq_false (by omega)
    rw [hno, Bool.or_false]
  · omega

/-- `settle` restores the agreement after the flags of one piece changed, when all but the count was brought up to date. -/
theorem Settled.settle {t t₁ : PieceTracker l} (h : t.Settled) (i : ValidPieceIndex l) (hreq : t₁.requestable = t.requestable)
    (hoff : ∀ j, j ≠ i → t₁.countsRequestable j = t.countsRequestable j)
    (hleft : t₁.left = ∑ j, leftShare t₁.wanted t₁.haveLocal j) (hneed : t₁.NeededExact) (hu : t₁.underflow = t.underflow) :
    (t₁.settle i (t.countsRequestable i)).Settled := by
  have hshare : ∀ j, j ≠ i → requestShare t.wanted t.haveLocal t.inFlight j = requestShare t₁.wanted t₁.haveLocal t₁.inFlight j := by
    intro j hj
    have := hoff j hj
    unfold countsRequestable at this
    unfold requestShare
    rw [this]
  obtain ⟨hcount, hexact⟩ := settle_spec (requestShare t.wanted t.haveLocal t.inFlight) (hreq.trans h.requestable) hshare rfl
  obtain ⟨n, u, hset⟩ := settle_eq t₁ i (t.countsRequestable i)
  have hcount' : (t₁.settle i (t.countsRequestable i)).requestable = _ := hcount
  have hexact' : (t₁.settle i (t.countsRequestable i)).underflow = _ := hexact
  rw [hset] at hcount' hexact' ⊢
  exact ⟨hcount', hleft, hneed, hexact'.trans (hu.trans h.exact)⟩

/-- What `set_local` does to the byte total and the order: the order is rebuilt unless no wanted piece is lost. -/
theorem settleLeft_eq (t : PieceTracker l) (idx : ValidPieceIndex l) (have' : Bool) :
    ∃ n r d u, t.settleLeft idx have' = { t with left := n, rebuild := r, deadPrefix := d, underflow := u } ∧
      ((r = true ∧ d = 0) ∨
        (r = t.rebuild ∧ d = t.deadPrefix ∧ (t.wanted idx = true → t.haveLocal idx = true → have' = true))) := by
  unfold settleLeft
  split
  · split
    · rename_i hh
      exact ⟨_, _, _, _, rfl, Or.inr ⟨rfl, rfl, fun _ _ => hh⟩⟩
    · exact ⟨_, _, _, _, rfl, Or.inl ⟨rfl, rfl⟩⟩
  · rename_i hne
    refine ⟨_, _, _, _, rfl, Or.inr ⟨rfl, rfl, fun hw hl => ?_⟩⟩
    rw [hw, hl] at hne
    simpa using hne

/-- `set_local` makes the byte total exact for the flags it is about to set. -/
theorem settleLeft_spec {t : PieceTracker l} (h : t.left = ∑ i, leftShare t.wanted t.haveLocal i) (idx : ValidPieceIndex l)
    (have' : Bool) :
    (t.settleLeft idx have').left = ∑ j, leftShare t.wanted (Function.update t.haveLocal idx have') j ∧
      (t.settleLeft idx have').underflow = t.underflow := by
  have hoff : ∀ j, j ≠ idx →
      leftShare t.wanted t.haveLocal j = leftShare t.wanted (Function.update t.haveLocal idx have') j := by
    intro j hj
    simp [leftShare, Function.update_of_ne hj]
  have hsum := sum_add_of_eq_off idx hoff
  have hle : leftShare t.wanted t.haveLocal idx ≤ ∑ j, leftShare t.wanted t.haveLocal j :=
    Finset.single_le_sum (fun _ _ => Nat.zero_le _) (Finset.mem_univ idx)
  have hold : leftShare t.wanted t.haveLocal idx = if t.wanted idx && !t.haveLocal idx then l.pieceLengthOf idx else 0 := rfl
  have hnew : leftShare t.wanted (Function.update t.haveLocal idx have') idx =
      if t.wanted idx && !have' then l.pieceLengthOf idx else 0 := by
    simp [leftShare]
  rw [← h] at hsum hle
  rw [hold] at hsum hle
  rw [hnew] at hsum
  unfold settleLeft
  cases hw : t.wanted idx <;> cases hl : t.haveLocal idx <;> cases have' <;>
    simp only [hw, hl, bne_self_eq_false, Bool.and_true, Bool.and_false, Bool.false_eq_true, if_false, if_true, Bool.not_false, Bool.not_true,
        bne_iff_ne, ne_eq, not_false_eq_true, reduceCtorEq, and_true]
      at hsum hle ⊢
  all_goals first
    | omega
    | refine ⟨by omega, ?_⟩
      have hno : decide (t.left < l.pieceLengthOf idx) = false := decide_eq_false (by omega)
      rw [hno, Bool.or_false]

theorem Settled.setLocal {t : PieceTracker l} (h : t.Settled) (idx : ValidPieceIndex l) (have' : Bool) :
    (t.setLocal idx have').Settled := by
  obtain ⟨n, r, d, u, hs, _⟩ := settleLeft_eq t idx have'
  obtain ⟨hleft, hu⟩ := settleLeft_spec h.left idx have'
  rw [hs] at hleft hu
  have hneed : (PieceTracker.markNeeded { t.settleLeft idx have' with haveLocal := Function.update t.haveLocal idx have' } idx).NeededExact := by
    rw [hs]
    refine NeededExact.markNeeded h.needed.1 (fun j hj => ?_)
    simp only [h.needed.2 j, isUseful]
    refine exists_congr (fun hlt => ?_)
    have hne : (⟨j, hlt⟩ : ValidPieceIndex l) ≠ idx := fun he => hj (congrArg Fin.val he)
    rw [Function.update_of_ne hne]
  unfold PieceTracker.setLocal
  rw [hs] at hneed ⊢
  cases have' with
  | false | true =>
    refine h.settle idx rfl (fun j hj => ?_) hleft hneed hu
    simp [countsRequestable, markNeeded, Function.update_of_ne hj]

theorem Settled.setWanted {t : PieceTracker l} (h : t.Settled) (wanted : List Bool) : (t.setWanted wanted).Settled := by
  unfold PieceTracker.setWanted
  split
  · rename_i hlen
    obtain ⟨hneed, bytes, hre⟩ := rebuildNeeded_spec
      { t with wanted := fun i => wanted.get ⟨i.val, by rw [hlen]; exact i.isLt⟩ }
    rw [hre] at hneed ⊢
    refine ⟨?_, scanBytesLeft_eq _, hneed, h.exact⟩
    exact length_filter_finRange _
  · exact h

/-- The two calls that only set the in-flight flag of a piece. -/
theorem Settled.flight {t : PieceTracker l} (h : t.Settled) (idx : ValidPieceIndex l) (on : Bool) (d : Nat) :
    (PieceTracker.settle { t with inFlight := Function.update t.inFlight idx on, deadPrefix := d } idx
      (t.countsRequestable idx)).Settled := by
  refine h.settle idx rfl (fun j hj => ?_) h.left h.needed rfl
  simp [countsRequestable, Function.update_of_ne hj]

theorem Settled.markInFlight {t : PieceTracker l} (h : t.Settled) (idx : ValidPieceIndex l) : (t.markInFlight idx).Settled :=
  h.flight idx true t.deadPrefix

theorem Settled.clearInFlight {t : PieceTracker l} (h : t.Settled) (idx : ValidPieceIndex l) : (t.clearInFlight idx).Settled := by
  unfold PieceTracker.clearInFlight
  cases hf : t.inFlight idx
  · exact h.flight idx false t.deadPrefix
  · exact h.flight idx false 0

theorem Settled.updatePeerHave {t : PieceTracker l} (h : t.Settled) (bitfield : List UInt8) (idx : ValidPieceIndex l) :
    (t.updatePeerHave bitfield idx).1.Settled := by
  unfold PieceTracker.updatePeerHave
  split
  · exact h
  split
  · exact h
  simp only
  split
  · exact h.of_eq rfl rfl rfl rfl rfl rfl rfl
  · exact h.of_eq rfl rfl rfl rfl rfl rfl rfl

theorem Settled.rebuildSorted {t : PieceTracker l} (h : t.Settled) : t.rebuildSorted.Settled :=
  h.of_eq rfl rfl rfl rfl rfl rfl rfl

theorem Settled.refreshOrder {t : PieceTracker l} (h : t.Settled) : t.refreshOrder.Settled := by
  unfold PieceTracker.refreshOrder
  split
  · exact h.rebuildSorted
  split
  · simp only
    split
    · exact h.of_eq rfl rfl rfl rfl rfl rfl rfl
    · exact h.of_eq rfl rfl rfl rfl rfl rfl rfl
  · exact h

theorem Settled.nextRequestable {t : PieceTracker l} (h : t.Settled) (bitfield : List UInt8) (cursor : Nat) :
    (t.nextRequestable bitfield cursor).1.Settled := by
  unfold PieceTracker.nextRequestable
  simp only
  split
  · exact h.of_eq rfl rfl rfl rfl rfl rfl rfl
  · exact h.of_eq rfl rfl rfl rfl rfl rfl rfl

/-- Every call keeps the summaries exact. -/
theorem Settled.apply {t : PieceTracker l} (h : t.Settled) (op : PieceOp l) : (op.apply t).Settled := by
  cases op with
  | setLocal idx have' => exact h.setLocal idx have'
  | setWanted wanted => exact h.setWanted wanted
  | markInFlight idx => exact h.markInFlight idx
  | clearInFlight idx => exact h.clearInFlight idx
  | updatePeerHave bitfield idx => exact h.updatePeerHave bitfield idx
  | addPeerBitfield bitfield | removePeerBitfield bitfield | replacePeerBitfield bitfield replacement => exact h.of_eq rfl rfl rfl rfl rfl rfl rfl
  | refreshOrder => exact h.refreshOrder
  | nextRequestable bitfield cursor => exact h.nextRequestable bitfield cursor

/-- The summaries of a fresh tracker are exact. -/
theorem settled_new (l : Lengths) : (PieceTracker.new l).Settled := by
  unfold PieceTracker.new
  obtain ⟨hneed, bytes, hre⟩ := rebuildNeeded_spec (l := l) ⟨fun _ => false, fun _ => true, [], l.totalLength, fun _ => false,
    fun _ => 0, l.totalPieces, [], true, false, 0, 0, [], false⟩
  rw [hre] at hneed ⊢
  refine ⟨?_, ?_, hneed, rfl⟩
  · simp [requestShare]
  · simp only [leftShare, Bool.not_false, Bool.and_self, if_true]
    exact (sum_pieceLengthOf l).symm

theorem Settled.withOrderSalt {t : PieceTracker l} (h : t.Settled) (salt : UInt64) : (t.withOrderSalt salt).Settled :=
  h.of_eq rfl rfl rfl rfl rfl rfl rfl

/-! ## The cached order -/

/-- What the cached order may leave out and the dead prefix may hide. -/
structure Ordered (t : PieceTracker l) : Prop where
  nodup : t.sorted.Nodup
  listed : t.rebuild = false → ∀ i, t.isUseful i = true → i ∈ t.sorted
  dead : t.rebuild = false → ∀ k < t.deadPrefix, ∀ i, t.sorted[k]? = some i → t.isRequestable i = false

theorem isRequestable_eq (t : PieceTracker l) (i : ValidPieceIndex l) : t.isRequestable i = (t.isUseful i && !t.inFlight i) := rfl

/-- A call that keeps the list and makes no piece useful, and none requestable unless it starts the dead prefix anew, keeps the
order; so does a call after which the list is rebuilt. -/
theorem Ordered.of_shrink {t t' : PieceTracker l} (h : t.Ordered) (hs : t'.sorted = t.sorted)
    (hr : t'.rebuild = true ∨ (t'.rebuild = t.rebuild ∧ (∀ i, t'.isUseful i = true → t.isUseful i = true) ∧
      (t'.deadPrefix = 0 ∨ (t'.deadPrefix = t.deadPrefix ∧ ∀ i, t.isRequestable i = false → t'.isRequestable i = false)))) :
    t'.Ordered := by
  refine ⟨by rw [hs]; exact h.nodup, fun hre i hi => ?_, fun hre k hk i hi => ?_⟩
  · rcases hr with hr | ⟨hr, hu, _⟩
    · rw [hr] at hre
      cases hre
    · rw [hs]
      exact h.listed (hr ▸ hre) i (hu i hi)
  · rcases hr with hr | ⟨hr, _, hd | ⟨hd, hq⟩⟩
    · rw [hr] at hre
      cases hre
    · rw [hd] at hk
      exact absurd hk (Nat.not_lt_zero k)
    · rw [hd] at hk
      rw [hs] at hi
      exact hq i (h.dead (hr ▸ hre) k hk i hi)

theorem Ordered.of_eq {t t' : PieceTracker l} (h : t.Ordered) (hs : t'.sorted = t.sorted) (hl : t'.haveLocal = t.haveLocal)
    (hw : t'.wanted = t.wanted) (hf : t'.inFlight = t.inFlight) (hr : t'.rebuild = t.rebuild)
    (hd : t'.deadPrefix = t.deadPrefix) : t'.Ordered := by
  refine h.of_shrink hs (Or.inr ⟨hr, fun i hi => ?_, Or.inr ⟨hd, fun i hi => ?_⟩⟩)
  · unfold isUseful at hi ⊢
    rwa [hw, hl] at hi
  · unfold isRequestable at hi ⊢
    rwa [hw, hl, hf]

theorem Ordered.settle {t : PieceTracker l} (h : t.Ordered) (i : ValidPieceIndex l) (before : Bool) : (t.settle i before).Ordered := by
  obtain ⟨n, u, hset⟩ := settle_eq t i before
  rw [hset]
  exact h.of_eq rfl rfl rfl rfl rfl rfl

theorem Ordered.setLocal {t : PieceTracker l} (h : t.Ordered) (idx : ValidPieceIndex l) (have' : Bool) :
    (t.setLocal idx have').Ordered := by
  obtain ⟨n, r, d, u, hs, hrd⟩ := settleLeft_eq t idx have'
  unfold PieceTracker.setLocal
  rw [hs]
  refine Ordered.settle (h.of_shrink (by cases have' <;> rfl) ?_) idx _
  rcases hrd with ⟨hr, _⟩ | ⟨hr, hd, hno⟩
  · exact Or.inl (by cases have' <;> exact hr)
  -- no wanted piece is lost: a useful piece was useful, and a requestable one requestable
  have hkeep : ∀ i, (t.wanted i && !Function.update t.haveLocal idx have' i) = true → t.isUseful i = true := by
    intro i hi
    by_cases hij : i = idx
    · subst hij
      simp only [Function.update_self, Bool.and_eq_true, Bool.not_eq_true'] at hi
      cases hl : t.haveLocal i with
      | false => simp [isUseful, hi.1, hl]
      | true => exact absurd (hno hi.1 hl) (by simp [hi.2])
    · rwa [Function.update_of_ne hij] at hi
  have hfl : ∀ i, (t.wanted i && !Function.update t.haveLocal idx have' i) = true →
      (if have' then Function.update t.inFlight idx false else t.inFlight) i = t.inFlight i := by
    intro i hi
    split
    · rename_i hh
      have hij : i ≠ idx := by
        rintro rfl
        simp [hh] at hi
      rw [Function.update_of_ne hij]
    · rfl
  refine Or.inr ⟨by cases have' <;> exact hr, fun i hi => hkeep i (by cases have' <;> exact hi),
    Or.inr ⟨by cases have' <;> exact hd, fun i hi => ?_⟩⟩
  by_contra hcon
  rw [Bool.not_eq_false] at hcon
  have hcon' : (t.wanted i && !Function.update t.haveLocal idx have' i &&
      !(if have' then Function.update t.inFlight idx false else t.inFlight) i) = true := by
    cases have' <;> exact hcon
  rw [Bool.and_eq_true] at hcon'
  rw [hfl i hcon'.1] at hcon'
  rw [isRequestable_eq, hkeep i hcon'.1, Bool.true_and] at hi
  rw [hi] at hcon'
  exact Bool.noConfusion hcon'.2

theorem Ordered.setWanted {t : PieceTracker l} (h : t.Ordered) (wanted : List Bool) : (t.setWanted wanted).Ordered := by
  unfold PieceTracker.setWanted
  split
  · rename_i hlen
    obtain ⟨_, bytes, hre⟩ := rebuildNeeded_spec
      { t with wanted := fun i => wanted.get ⟨i.val, by rw [hlen]; exact i.isLt⟩ }
    rw [hre]
    exact h.of_shrink rfl (Or.inl rfl)
  · exact h

theorem Ordered.markInFlight {t : PieceTracker l} (h : t.Ordered) (idx : ValidPieceIndex l) : (t.markInFlight idx).Ordered := by
  unfold PieceTracker.markInFlight
  refine Ordered.settle ?_ idx _
  refine h.of_shrink rfl (Or.inr ⟨rfl, fun i hi => hi, Or.inr ⟨rfl, fun i hi => ?_⟩⟩)
  unfold isRequestable at hi ⊢
  by_cases hij : i = idx
  · subst hij
    simp
  · simpa only [Function.update_of_ne hij] using hi

theorem Ordered.clearInFlight {t : PieceTracker l} (h : t.Ordered) (idx : ValidPieceIndex l) : (t.clearInFlight idx).Ordered := by
  unfold PieceTracker.clearInFlight
  refine Ordered.settle ?_ idx _
  cases hf : t.inFlight idx with
  | false =>
    refine h.of_eq rfl rfl rfl ?_ rfl rfl
    simp only [Bool.false_eq_true, if_false]
    rw [← hf, Function.update_eq_self]
  | true => exact h.of_shrink rfl (Or.inr ⟨rfl, fun i hi => hi, Or.inl rfl⟩)

theorem Ordered.updatePeerHave {t : PieceTracker l} (h : t.Ordered) (bitfield : List UInt8) (idx : ValidPieceIndex l) :
    (t.updatePeerHave bitfield idx).1.Ordered := by
  unfold PieceTracker.updatePeerHave
  split
  · exact h
  split
  · exact h
  simp only
  split
  · exact h.of_eq rfl rfl rfl rfl rfl rfl
  · exact h.of_eq rfl rfl rfl rfl rfl rfl

/-- A sort that lists every useful piece once leaves an order that hides nothing. -/
theorem ordered_sortByRarity {t : PieceTracker l} (hnodup : t.sorted.Nodup) (hlisted : t.rebuild = false → ∀ i, t.isUseful i = true → i ∈ t.sorted) :
    t.sortByRarity.Ordered := by
  refine ⟨(List.perm_insertionSort _ _).nodup_iff.mpr hnodup, fun hr i hi => ?_, fun _ k hk => absurd hk (Nat.not_lt_zero k)⟩
  exact (List.perm_insertionSort _ _).mem_iff.mpr (hlisted hr i hi)

theorem ordered_rebuildSorted (t : PieceTracker l) : t.rebuildSorted.Ordered := by
  refine ordered_sortByRarity ((List.nodup_finRange _).filter _) (fun _ i hi => ?_)
  rw [List.mem_filter]
  refine ⟨List.mem_finRange i, ?_⟩
  unfold isUseful at hi
  simpa [and_comm] using hi

theorem Ordered.refreshOrder {t : PieceTracker l} (h : t.Ordered) : t.refreshOrder.Ordered := by
  unfold PieceTracker.refreshOrder
  split
  · exact ordered_rebuildSorted t
  split
  · simp only
    split
    · exact h.of_eq rfl rfl rfl rfl rfl rfl
    · refine ordered_sortByRarity (h.nodup.filter _) (fun hr i hi => ?_)
      exact List.mem_filter.mpr ⟨h.listed hr i hi, hi⟩
  · exact h

/-! ## The scan -/

/-- A piece the scan returns for a peer with this bitfield. -/
def offers (t : PieceTracker l) (bitfield : List UInt8) (i : ValidPieceIndex l) : Bool :=
  t.isRequestable i && bitAt bitfield i.val

/-- The loop of `next_requestable` stops at the first piece it offers; the dead prefix grows over pieces that are not requestable
and stays behind the cursor. -/
theorem scanFrom_spec (t : PieceTracker l) (bitfield : List UInt8) (rest : List (ValidPieceIndex l)) {cursor dead : Nat}
    (hle : dead ≤ cursor) :
    ∃ found c d, t.scanFrom bitfield rest cursor dead = (found, c, d) ∧ d ≤ c ∧
      (∀ k < d, dead ≤ k → cursor ≤ k ∧ ∀ i, rest[k - cursor]? = some i → t.isRequestable i = false) ∧
      ((found = none ∧ rest.filter (t.offers bitfield) = []) ∨
        ∃ p, found = some p ∧ cursor < c ∧ rest.filter (t.offers bitfield) = p :: (rest.drop (c - cursor)).filter (t.offers bitfield)) := by
  induction rest generalizing cursor dead with
  | nil =>
    refine ⟨none, cursor, dead, rfl, hle, fun k hk hk' => ?_, Or.inl ⟨rfl, rfl⟩⟩
    omega
  | cons v rest ih =>
    unfold scanFrom
    simp only
    -- the dead prefix after this position: it passes the position only when the piece is not requestable
    have hstep : ∀ {d'}, d' = (if !(t.wanted v && !t.haveLocal v && !t.inFlight v) && cursor == dead then dead + 1 else dead) →
        d' ≤ cursor + 1 ∧ (d' = dead ∨ (d' = dead + 1 ∧ dead = cursor ∧ t.isRequestable v = false)) := by
      rintro d' rfl
      split
      · rename_i hc
        simp only [Bool.and_eq_true, beq_iff_eq, Bool.not_eq_true'] at hc
        exact ⟨by omega, Or.inr ⟨rfl, hc.2.symm, hc.1⟩⟩
      · exact ⟨by omega, Or.inl rfl⟩
    generalize hd' : (if !(t.wanted v && !t.haveLocal v && !t.inFlight v) && cursor == dead then dead + 1 else dead) = d'
    obtain ⟨hle', hcase⟩ := hstep hd'.symm
    split
    · rename_i hoff
      refine ⟨some v, cursor + 1, d', rfl, hle', fun k hk hk' => ?_, Or.inr ⟨v, rfl, by omega, ?_⟩⟩
      · rcases hcase with rfl | ⟨rfl, rfl, hnr⟩
        · omega
        · obtain rfl : k = dead := by omega
          refine ⟨Nat.le_refl _, fun i hi => ?_⟩
          simp only [Nat.sub_self, List.getElem?_cons_zero, Option.some.injEq] at hi
          rw [← hi]
          exact hnr
      · rw [List.filter_cons, if_pos (show t.offers bitfield v = true from hoff)]
        simp
    · rename_i hoff
      obtain ⟨found, c, d, heq, hdc, hdead, hres⟩ := ih hle'
      have hskip : (v :: rest).filter (t.offers bitfield) = rest.filter (t.offers bitfield) := by
        rw [List.filter_cons, if_neg (show ¬ t.offers bitfield v = true from hoff)]
      refine ⟨found, c, d, heq, hdc, fun k hk hk' => ?_, ?_⟩
      · by_cases hkd : d' ≤ k
        · obtain ⟨hck, hall⟩ := hdead k hk hkd
          refine ⟨by omega, fun i hi => hall i ?_⟩
          rwa [show k - cursor = (k - (cursor + 1)) + 1 by omega, List.getElem?_cons_succ] at hi
        · rcases hcase with rfl | ⟨rfl, rfl, hnr⟩
          · omega
          · obtain rfl : k = dead := by omega
            refine ⟨Nat.le_refl _, fun i hi => ?_⟩
            simp only [Nat.sub_self, List.getElem?_cons_zero, Option.some.injEq] at hi
            rw [← hi]
            exact hnr
      · rw [hskip]
        rcases hres with ⟨rfl, hnil⟩ | ⟨p, rfl, hlt, hfilter⟩
        · exact Or.inl ⟨rfl, hnil⟩
        · refine Or.inr ⟨p, rfl, by omega, ?_⟩
          rw [hfilter, show c - cursor = (c - (cursor + 1)) + 1 by omega, List.drop_succ_cons]

/-- One call of `next_requestable` with an order in place: it returns the first piece on offer from the cursor on, and moves only
the dead prefix. -/
theorem nextRequestable_spec {t : PieceTracker l} (h : t.Ordered) (hr : t.rebuild = false) (bitfield : List UInt8) (cursor : Nat) :
    ∃ found c d, t.nextRequestable bitfield cursor = ({ t with deadPrefix := d }, found, c) ∧ d ≤ c ∧
      ({ t with deadPrefix := d } : PieceTracker l).Ordered ∧
      ((found = none ∧ (t.sorted.drop (max cursor t.deadPrefix)).filter (t.offers bitfield) = []) ∨
        ∃ p, found = some p ∧ (t.sorted.drop (max cursor t.deadPrefix)).filter (t.offers bitfield) =
          p :: (t.sorted.drop c).filter (t.offers bitfield)) := by
  obtain ⟨found, c, d, heq, hdc, hdead, hres⟩ :=
    scanFrom_spec t bitfield (t.sorted.drop (max cursor t.deadPrefix)) (Nat.le_max_right cursor t.deadPrefix)
  refine ⟨found, c, d, ?_, hdc, ⟨h.nodup, h.listed, fun _ k hk i hi => ?_⟩, ?_⟩
  · unfold nextRequestable
    simp only [hr, Bool.false_eq_true, if_false, heq]
  · by_cases hkd : k < t.deadPrefix
    · exact h.dead hr k hkd i hi
    · obtain ⟨hle, hall⟩ := hdead k hk (Nat.le_of_not_lt hkd)
      refine hall i ?_
      rw [List.getElem?_drop, Nat.add_sub_cancel' hle]
      exact hi
  · rcases hres with ⟨rfl, hnil⟩ | ⟨p, rfl, hlt, hfilter⟩
    · exact Or.inl ⟨rfl, hnil⟩
    · refine Or.inr ⟨p, rfl, ?_⟩
      rw [hfilter, List.drop_drop, Nat.add_sub_cancel' (Nat.le_of_lt hlt)]

/-- The tracker whose order a scan reads. -/
def withOrder (t : PieceTracker l) : PieceTracker l := if t.rebuild then t.rebuildSorted else t

theorem nextRequestable_withOrder (t : PieceTracker l) (bitfield : List UInt8) (cursor : Nat) :
    t.nextRequestable bitfield cursor = t.withOrder.nextRequestable bitfield cursor := by
  unfold withOrder
  split
  · rename_i hr
    unfold nextRequestable
    simp only [hr, if_true]
    rfl
  · rfl

theorem Ordered.withOrder {t : PieceTracker l} (h : t.Ordered) : t.withOrder.Ordered ∧ t.withOrder.rebuild = false := by
  unfold PieceTracker.withOrder
  split
  · exact ⟨ordered_rebuildSorted t, rfl⟩
  · rename_i hr
    exact ⟨h, Bool.eq_false_iff.mpr hr⟩

theorem isRequestable_withOrder (t : PieceTracker l) : t.withOrder.isRequestable = t.isRequestable := by
  unfold withOrder
  split
  · rfl
  · rfl

theorem Ordered.nextRequestable {t : PieceTracker l} (h : t.Ordered) (bitfield : List UInt8) (cursor : Nat) :
    (t.nextRequestable bitfield cursor).1.Ordered := by
  obtain ⟨ho, hr⟩ := h.withOrder
  obtain ⟨_, _, _, heq, _, hord, _⟩ := nextRequestable_spec ho hr bitfield cursor
  rw [nextRequestable_withOrder, heq]
  exact hord

/-- Every call keeps the order. -/
theorem Ordered.apply {t : PieceTracker l} (h : t.Ordered) (op : PieceOp l) : (op.apply t).Ordered := by
  cases op with
  | setLocal idx have' => exact h.setLocal idx have'
  | setWanted wanted => exact h.setWanted wanted
  | markInFlight idx => exact h.markInFlight idx
  | clearInFlight idx => exact h.clearInFlight idx
  | updatePeerHave bitfield idx => exact h.updatePeerHave bitfield idx
  | addPeerBitfield bitfield => exact h.of_eq rfl rfl rfl rfl rfl rfl
  | removePeerBitfield bitfield => exact h.of_eq rfl rfl rfl rfl rfl rfl
  | replacePeerBitfield bitfield replacement => exact h.of_eq rfl rfl rfl rfl rfl rfl
  | refreshOrder => exact h.refreshOrder
  | nextRequestable bitfield cursor => exact h.nextRequestable bitfield cursor

/-- A fresh tracker has no order and is going to build one. -/
theorem ordered_new (l : Lengths) : (PieceTracker.new l).Ordered := by
  unfold PieceTracker.new
  obtain ⟨_, bytes, hre⟩ := rebuildNeeded_spec (l := l) ⟨fun _ => false, fun _ => true, [], l.totalLength, fun _ => false,
    fun _ => 0, l.totalPieces, [], true, false, 0, 0, [], false⟩
  rw [hre]
  exact ⟨List.nodup_nil, fun h => Bool.noConfusion h, fun h => Bool.noConfusion h⟩

theorem Ordered.withOrderSalt {t : PieceTracker l} (h : t.Ordered) (salt : UInt64) : (t.withOrderSalt salt).Ordered :=
  h.of_eq rfl rfl rfl rfl rfl rfl

/-- The pieces on offer in an order are the pieces that are requestable and that the peer has, each once. -/
theorem Ordered.filter_offers {t : PieceTracker l} (h : t.Ordered) (hr : t.rebuild = false) (bitfield : List UInt8) :
    ((t.sorted.drop t.deadPrefix).filter (t.offers bitfield)).Nodup ∧
      ∀ p, p ∈ (t.sorted.drop t.deadPrefix).filter (t.offers bitfield) ↔ t.offers bitfield p = true := by
  refine ⟨(h.nodup.sublist (List.drop_sublist _ _)).filter _, fun p => ⟨fun hp => (List.mem_filter.mp hp).2, fun hp => ?_⟩⟩
  have hreq : t.isRequestable p = true := (Bool.and_eq_true _ _ ▸ hp : _ ∧ _).1
  have huse : t.isUseful p = true := by
    rw [isRequestable_eq, Bool.and_eq_true] at hreq
    exact hreq.1
  obtain ⟨k, hk⟩ := List.mem_iff_getElem?.mp (h.listed hr p huse)
  refine List.mem_filter.mpr ⟨List.mem_iff_getElem?.mpr ⟨k - t.deadPrefix, ?_⟩, hp⟩
  have hge : t.deadPrefix ≤ k := by
    by_contra hlt
    rw [h.dead hr k (by omega) p hk] at hreq
    cases hreq
  rw [List.getElem?_drop, Nat.add_sub_cancel' hge]
  exact hk

end PieceTracker

end Risuko
