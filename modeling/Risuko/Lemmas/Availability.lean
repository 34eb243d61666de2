import Risuko.Torrent.Availability

/-!
# Availability counts

A pass over a bitfield moves the count of each piece whose bit is set by one (`forEachSetBit_availability`). From this, what each
event does to the counts and to the number of holders of a piece, and the invariant `Holders.Counted` that the events keep.
-/

namespace Risuko

variable {l : Lengths}

namespace PieceTracker

/-! ## One pass over a bitfield -/

/-- What a pass leaves of the count of a piece whose bit is set. -/
def bumped (n : Nat) (up : Bool) : Nat := if up then min (n + 1) (2 ^ 32 - 1) else n - 1

theorem bumpAvailability_apply (av : ValidPieceIndex l → Nat) (i j : ValidPieceIndex l) (up : Bool) :
    bumpAvailability av i up j = if j = i then bumped (av j) up else av j := by
  unfold bumpAvailability bumped
  by_cases h : j = i
  · subst h
    simp
  · simp [h]

/-- The pass over one byte visits the bits in rising order, so it stops only where no piece is left. -/
theorem bumpByte_apply (up : Bool) (k : Nat) (b : UInt8) {bits : List Nat} (hsorted : bits.Pairwise (· < ·))
    (hlt : ∀ x ∈ bits, x < 8) (av : ValidPieceIndex l → Nat) (i : ValidPieceIndex l) :
    bumpByte up k b bits av i =
      if i.val / 8 = k ∧ i.val % 8 ∈ bits ∧ byteHas b i.val = true then bumped (av i) up else av i := by
  induction bits generalizing av with
  | nil => simp [bumpByte]
  | cons bit bits ih =>
    obtain ⟨hrest, hsorted⟩ := List.pairwise_cons.mp hsorted
    have hbit : bit < 8 := hlt bit (by simp)
    have hlt' : ∀ x ∈ bits, x < 8 := fun x hx => hlt x (List.mem_cons_of_mem _ hx)
    have hnotin : bit ∉ bits := fun h => absurd (hrest bit h) (lt_irrefl _)
    unfold bumpByte
    by_cases hhas : byteHas b bit = true
    · rw [if_pos hhas]
      by_cases hval : k * 8 + bit < l.totalPieces
      · rw [dif_pos hval, ih hsorted hlt', bumpAvailability_apply]
        by_cases hi : i = ⟨k * 8 + bit, hval⟩
        · -- The piece of this bit: the rest of the byte does not visit it again.
          have hdiv : i.val / 8 = k := by rw [hi]; simp only; omega
          have hmod : i.val % 8 = bit := by rw [hi]; simp only; omega
          have hb : byteHas b i.val = true := by rw [← byteHas_mod, hmod]; exact hhas
          rw [if_neg (by rw [hmod]; exact fun h => hnotin h.2.1), if_pos hi,
            if_pos ⟨hdiv, by rw [hmod]; exact List.mem_cons_self, hb⟩]
        · have hne : ¬ (i.val / 8 = k ∧ i.val % 8 = bit) := fun h => hi (Fin.ext (by simp only; omega))
          rw [if_neg hi]
          refine if_congr ⟨fun h => ⟨h.1, List.mem_cons_of_mem _ h.2.1, h.2.2⟩, fun h => ⟨h.1, ?_, h.2.2⟩⟩ rfl rfl
          rcases List.mem_cons.mp h.2.1 with he | hmem
          · exact absurd ⟨h.1, he⟩ hne
          · exact hmem
      · rw [dif_neg hval, if_neg]
        rintro ⟨hdiv, hmem, _⟩
        have hge : bit ≤ i.val % 8 := by
          rcases List.mem_cons.mp hmem with he | hmem
          · exact he.ge
          · exact (hrest _ hmem).le
        have := i.isLt
        omega
    · rw [if_neg hhas, ih hsorted hlt']
      refine if_congr ⟨fun h => ⟨h.1, List.mem_cons_of_mem _ h.2.1, h.2.2⟩, fun h => ⟨h.1, ?_, h.2.2⟩⟩ rfl rfl
      rcases List.mem_cons.mp h.2.1 with he | hmem
      · rw [← byteHas_mod, he] at h
        exact absurd h.2.2 hhas
      · exact hmem

/-- The pass over the bytes from byte `n` on. -/
theorem bumpBytes_apply (up : Bool) (bytes : List UInt8) (n : Nat) (av : ValidPieceIndex l → Nat) (i : ValidPieceIndex l) :
    (bytes.zipIdx n).foldl (fun av e => if e.1 = 0 then av else bumpByte up e.2 e.1 (List.range 8) av) av i =
      if n ≤ i.val / 8 ∧ bytes[i.val / 8 - n]?.any (fun b => byteHas b i.val) = true then bumped (av i) up else av i := by
  induction bytes generalizing n av with
  | nil => simp
  | cons b bytes ih =>
    rw [List.zipIdx_cons, List.foldl_cons, ih]
    have hfirst : (if b = 0 then av else bumpByte up n b (List.range 8) av) i =
        if i.val / 8 = n ∧ byteHas b i.val = true then bumped (av i) up else av i := by
      by_cases hb : b = 0
      · simp [hb, byteHas_zero]
      · rw [if_neg hb, bumpByte_apply up n b List.pairwise_lt_range (by simp)]
        simp [Nat.mod_lt]
    rw [hfirst]
    rcases lt_trichotomy (i.val / 8) n with h | h | h
    · rw [if_neg (by omega), if_neg (by omega), if_neg (by omega)]
    · rw [if_neg (by omega)]
      simp [h]
    · obtain ⟨k, hk⟩ : ∃ k, i.val / 8 - n = k + 1 := ⟨i.val / 8 - n - 1, by omega⟩
      have hk' : i.val / 8 - (n + 1) = k := by omega
      have hne : ¬ (i.val / 8 = n ∧ byteHas b i.val = true) := by omega
      rw [if_neg hne, hk, hk', List.getElem?_cons_succ]
      refine if_congr ⟨fun hh => ⟨by omega, hh.2⟩, fun hh => ⟨by omega, hh.2⟩⟩ rfl rfl

/-- A pass over a bitfield moves the count of each piece whose bit is set by one, and no other count. -/
theorem forEachSetBit_availability (t : PieceTracker l) (bitfield : List UInt8) (up : Bool) (i : ValidPieceIndex l) :
    (t.forEachSetBit bitfield up).availability i =
      if bitAt bitfield i.val = true then bumped (t.availability i) up else t.availability i := by
  have h := bumpBytes_apply up bitfield 0 t.availability i
  unfold forEachSetBit
  simp only [Nat.zero_le, true_and, Nat.sub_zero] at h ⊢
  rw [h]
  unfold bitAt
  cases bitfield[i.val / 8]? <;> rfl

/-! ## The other calls -/

theorem foldl_markNeeded_availability (js : List (ValidPieceIndex l)) (t : PieceTracker l) :
    (js.foldl markNeeded t).availability = t.availability := by
  induction js generalizing t with
  | nil => rfl
  | cons j js ih =>
    rw [List.foldl_cons, ih]
    rfl

/-- A call that is not about peers leaves the counts. -/
theorem apply_availability {op : PieceOp l} (h : op.local' = true) (t : PieceTracker l) :
    (op.apply t).availability = t.availability := by
  have hsettle : ∀ (t : PieceTracker l) i before, (t.settle i before).availability = t.availability := by
    intro t i before
    unfold settle
    split <;> rfl
  have hrebuild : ∀ t : PieceTracker l, t.rebuildSorted.availability = t.availability := fun t => rfl
  cases op with
  | setLocal idx have' =>
    have hleft : (t.settleLeft idx have').availability = t.availability := by
      unfold settleLeft
      split
      · split <;> rfl
      · rfl
    simp only [PieceOp.apply, setLocal, hsettle]
    split <;> exact hleft
  | setWanted wanted =>
    simp only [PieceOp.apply, setWanted]
    split
    · exact foldl_markNeeded_availability _ _
    · rfl
  | markInFlight idx => exact hsettle _ _ _
  | clearInFlight idx =>
    simp only [PieceOp.apply, clearInFlight, hsettle]
    split <;> rfl
  | refreshOrder =>
    simp only [PieceOp.apply, refreshOrder]
    split
    · rfl
    split
    · split <;> rfl
    · rfl
  | nextRequestable peerBitfield cursor =>
    simp only [PieceOp.apply, nextRequestable]
    split <;> rfl
  | updatePeerHave _ _ => cases h
  | addPeerBitfield _ => cases h
  | removePeerBitfield _ => cases h
  | replacePeerBitfield _ _ => cases h

end PieceTracker

/-! ## Holders -/

namespace Holders

/-- The number of connected peers whose bitfield has a piece. -/
def holders (s : Holders l) (i : ValidPieceIndex l) : Nat :=
  (s.peers.entries.filter (fun e => bitAt e.2.bitfield i.val)).length

/-- What a bitfield adds to the count of a piece. -/
def share (i : ValidPieceIndex l) (bitfield : List UInt8) : Nat := if bitAt bitfield i.val then 1 else 0

/-- What the peers of a map add to the count of a piece. -/
def shares (i : ValidPieceIndex l) (peers : OrdMap Nat Holder) : Nat := peers.sumOf (fun _ p => share i p.bitfield)

theorem holders_eq (s : Holders l) (i : ValidPieceIndex l) : s.holders i = shares i s.peers := by
  unfold holders shares OrdMap.sumOf share
  generalize s.peers.entries = L
  induction L with
  | nil => rfl
  | cons e L ih =>
    cases h : bitAt e.2.bitfield i.val
    · simp [h, ih]
    · simp [h, ih]
      omega

theorem share_le (i : ValidPieceIndex l) (bitfield : List UInt8) : share i bitfield ≤ 1 := by
  unfold share
  split <;> omega

theorem shares_insert (i : ValidPieceIndex l) (peers : OrdMap Nat Holder) (pid : Nat) (p : Holder) :
    shares i (peers.insert pid p) = share i p.bitfield + shares i (peers.erase pid) :=
  OrdMap.sumOf_insert _ peers pid p

theorem shares_of_get? (i : ValidPieceIndex l) {peers : OrdMap Nat Holder} {pid : Nat} {p : Holder} (h : peers.get? pid = some p) :
    shares i peers = share i p.bitfield + shares i (peers.erase pid) :=
  OrdMap.sumOf_erase _ peers h

theorem shares_le_size (i : ValidPieceIndex l) (peers : OrdMap Nat Holder) : shares i peers ≤ peers.size := by
  unfold shares OrdMap.sumOf OrdMap.size
  calc (peers.entries.map (fun e => share i e.2.bitfield)).sum
      ≤ (peers.entries.map (fun e => share i e.2.bitfield)).length • 1 := by
        refine List.sum_le_card_nsmul _ 1 (fun n hn => ?_)
        obtain ⟨e, _, rfl⟩ := List.mem_map.mp hn
        exact share_le i e.2.bitfield
    _ = peers.entries.length := by simp

/-- The ids below a bound, and above zero, bound the number of peers. -/
theorem size_lt {peers : OrdMap Nat Holder} {next : Nat} (hnext : 0 < next)
    (h : ∀ pid p, peers.get? pid = some p → 0 < pid ∧ pid < next) : peers.size < next := by
  have hsub : peers.keys.toFinset ⊆ Finset.Ico 1 next := by
    intro pid hpid
    obtain ⟨p, hp⟩ := OrdMap.mem_keys.mp (List.mem_toFinset.mp hpid)
    exact Finset.mem_Ico.mpr (h pid p hp)
  have hcard := Finset.card_le_card hsub
  rw [List.toFinset_card_of_nodup peers.keys_nodup, Nat.card_Ico] at hcard
  have hlen : peers.keys.length = peers.size := by simp [OrdMap.keys, OrdMap.size]
  omega

/-! ## Passes that count a peer in and out -/

/-- Taking out a bitfield that was counted leaves the rest of the count, and lowers no count at zero. -/
theorem removePeerBitfield_exact {t : PieceTracker l} {bitfield : List UInt8} {rest : ValidPieceIndex l → Nat}
    (h : ∀ i, t.availability i = share i bitfield + rest i) :
    (∀ i, (t.removePeerBitfield bitfield).availability i = rest i) ∧ t.clips bitfield false = false := by
  constructor
  · intro i
    unfold PieceTracker.removePeerBitfield
    rw [PieceTracker.forEachSetBit_availability, h i]
    unfold share PieceTracker.bumped
    split <;> simp
  · unfold PieceTracker.clips
    rw [List.any_eq_false]
    intro i _
    cases hb : bitAt bitfield i.val
    · simp
    · have hi := h i
      simp only [share, hb, if_true] at hi
      simp only [Bool.true_and, Bool.false_eq_true, if_false, beq_iff_eq]
      omega

/-- Counting in a bitfield adds it to the count, and raises no count at its maximum. -/
theorem addPeerBitfield_exact {t : PieceTracker l} (bitfield : List UInt8) (h : ∀ i, t.availability i < 2 ^ 32 - 1) :
    (∀ i, (t.addPeerBitfield bitfield).availability i = share i bitfield + t.availability i) ∧ t.clips bitfield true = false := by
  constructor
  · intro i
    unfold PieceTracker.addPeerBitfield
    rw [PieceTracker.forEachSetBit_availability]
    have hi := h i
    unfold share PieceTracker.bumped
    split
    · simp only [if_true]
      omega
    · omega
  · unfold PieceTracker.clips
    rw [List.any_eq_false]
    intro i _
    have hi := h i
    simp only [if_true, Bool.and_eq_true, beq_iff_eq, not_and]
    omega

/-- Replacing a bitfield that was counted: the old one is out of the count, the new one in it. -/
theorem replacePeerBitfield_exact {t : PieceTracker l} (bitfield : List UInt8) {rest : ValidPieceIndex l → Nat}
    (replacement : List UInt8) (h : ∀ i, t.availability i = share i bitfield + rest i) (hrest : ∀ i, rest i < 2 ^ 32 - 1) :
    (∀ i, (t.replacePeerBitfield bitfield replacement).1.availability i =
      share i (t.replacePeerBitfield bitfield replacement).2 + rest i) ∧ t.replaceClips bitfield replacement = false := by
  obtain ⟨hout, hclip⟩ := removePeerBitfield_exact h
  obtain ⟨hin, hclip'⟩ := addPeerBitfield_exact (t := t.removePeerBitfield bitfield)
    (t.replacePeerBitfield bitfield replacement).2 (fun i => by rw [hout i]; exact hrest i)
  refine ⟨fun i => ?_, ?_⟩
  · rw [← hout i, ← hin i]
    rfl
  · unfold PieceTracker.replaceClips
    rw [hclip, hclip']
    rfl

/-- A `Have` counts the piece for the peer unless it was counted already. -/
theorem updatePeerHave_exact {t : PieceTracker l} {bitfield : List UInt8} {rest : ValidPieceIndex l → Nat}
    (idx : ValidPieceIndex l) (h : ∀ i, t.availability i = share i bitfield + rest i) (hrest : ∀ i, rest i < 2 ^ 32 - 1) :
    (∀ i, (t.updatePeerHave bitfield idx).1.availability i = share i (t.updatePeerHave bitfield idx).2.1 + rest i) ∧
      t.haveClips bitfield idx = false := by
  unfold PieceTracker.haveClips PieceTracker.updatePeerHave
  split
  · exact ⟨h, rfl⟩
  · rename_i slot hslot
    by_cases hhas : byteHas slot idx.val = true
    · rw [if_pos hhas]
      exact ⟨h, rfl⟩
    · rw [if_neg hhas]
      have hlen : idx.val / 8 < bitfield.length := (List.getElem?_eq_some_iff.mp hslot).1
      have hold : share idx bitfield = 0 := by
        unfold share
        rw [bitAt_of_getElem? hslot, if_neg hhas]
      have hidx := h idx
      have hr := hrest idx
      refine ⟨fun i => ?_, ?_⟩
      · have hav : ∀ t' : PieceTracker l, t'.availability = PieceTracker.bumpAvailability t.availability idx true →
            t'.availability i = share i (bitfield.set (idx.val / 8) (slot ||| bitMask idx.val)) + rest i := by
          intro t' ht'
          rw [ht', PieceTracker.bumpAvailability_apply]
          unfold share PieceTracker.bumped
          rw [bitAt_set hlen, byteHas_or_mask]
          by_cases hi : i = idx
          · subst hi
            simp only [if_true, decide_true, Bool.or_true]
            omega
          · rw [if_neg hi, h i]
            unfold share
            by_cases hdiv : i.val / 8 = idx.val / 8
            · have hmod : ¬ idx.val % 8 = i.val % 8 := fun hm => hi (Fin.ext (by omega))
              have hold' : bitAt bitfield i.val = byteHas slot i.val := bitAt_of_getElem? (by rw [hdiv]; exact hslot)
              simp [hdiv, hmod, hold']
            · simp [hdiv]
        simp only
        split
        · exact hav _ rfl
        · exact hav _ rfl
      · simp only [Bool.true_and, beq_eq_false_iff_ne]
        omega

/-! ## The invariant -/

/-- What holds in every state: every id is below the next one, the counts are exact, and none was clipped. -/
structure Counted (s : Holders l) : Prop where
  lanes : ∀ pid ∈ s.lanes, 0 < pid ∧ pid < s.nextPid
  pids : ∀ pid p, s.peers.get? pid = some p → 0 < pid ∧ pid < s.nextPid
  next : 0 < s.nextPid ∧ s.nextPid < 2 ^ 32
  exact : ∀ i, s.pieceTracker.availability i = shares i s.peers
  unclipped : s.clipped = false

theorem Counted.shares_lt {s : Holders l} (h : s.Counted) (i : ValidPieceIndex l) (pid : Nat) :
    shares i (s.peers.erase pid) < 2 ^ 32 - 1 := by
  have herase : ∀ pid' p, (s.peers.erase pid).get? pid' = some p → 0 < pid' ∧ pid' < s.nextPid := by
    intro pid' p hp
    rw [OrdMap.get?_erase] at hp
    split at hp
    · cases hp
    · exact h.pids pid' p hp
  have hsize := size_lt h.next.1 herase
  have hle := shares_le_size i (s.peers.erase pid)
  have hnext := h.next.2
  omega

/-- The counts split at a connected peer. -/
theorem Counted.split {s : Holders l} (h : s.Counted) {pid : Nat} {p : Holder} (hp : s.peers.get? pid = some p)
    (i : ValidPieceIndex l) : s.pieceTracker.availability i = share i p.bitfield + shares i (s.peers.erase pid) := by
  rw [h.exact i, shares_of_get? i hp]

/-- A peer that is adopted has no piece yet. -/
theorem shares_adopt (i : ValidPieceIndex l) {peers : OrdMap Nat Holder} {pid : Nat} (h : peers.get? pid = none)
    (bytes : Nat) (supportsFast : Bool) : shares i (peers.insert pid (Holder.connected bytes supportsFast)) = shares i peers := by
  rw [shares_insert, OrdMap.erase_of_get?_none peers h]
  simp [share, Holder.connected, bitAt_replicate_zero]

theorem Counted.start (t : PieceTracker l) (h : ∀ i, t.availability i = 0) : (start t).Counted where
  lanes := by simp [Holders.start]
  pids := by simp [Holders.start]
  next := by simp [Holders.start]
  exact := h
  unclipped := rfl

theorem Counted.dial {s : Holders l} (h : s.Counted) : s.dial.Counted := by
  have hnext := h.next
  unfold Holders.dial
  split
  · rename_i hlt
    refine ⟨?_, ?_, ⟨by simp only; omega, hlt⟩, h.exact, h.unclipped⟩
    · intro pid hpid
      simp only at hpid ⊢
      rcases List.mem_cons.mp hpid with rfl | hpid
      · exact ⟨h.next.1, by omega⟩
      · have := h.lanes pid hpid
        omega
    · intro pid p hp
      have := h.pids pid p hp
      simp only
      omega
  · exact h

theorem Counted.handshook {s : Holders l} (h : s.Counted) (pid : Nat) (supportsFast refused : Bool) :
    (s.handshook pid supportsFast refused).Counted := by
  have hlanes : ∀ pid' ∈ s.lanes.filter (fun lane => lane != pid), 0 < pid' ∧ pid' < s.nextPid := by
    intro pid' hpid'
    exact h.lanes pid' (List.mem_of_mem_filter hpid')
  unfold Holders.handshook
  split
  · exact h
  · rename_i hguard
    simp only [Bool.or_eq_true, decide_eq_true_eq, not_or, Decidable.not_not] at hguard
    have hnone : s.peers.get? pid = none := by
      cases hg : s.peers.get? pid with
      | none => rfl
      | some p => exact absurd (OrdMap.contains_iff.mpr ⟨p, hg⟩) hguard.1
    cases refused with
    | true => exact ⟨hlanes, h.pids, h.next, h.exact, h.unclipped⟩
    | false =>
      refine ⟨hlanes, ?_, h.next, ?_, h.unclipped⟩
      · intro pid' p hp
        simp only [Bool.false_eq_true, if_false] at hp ⊢
        rw [OrdMap.get?_insert] at hp
        split at hp
        · rename_i he
          subst he
          exact h.lanes _ hguard.2
        · exact h.pids pid' p hp
      · intro i
        simp only [Bool.false_eq_true, if_false]
        rw [shares_adopt i hnone]
        exact h.exact i

theorem Counted.adoptInboundPeer {s : Holders l} (h : s.Counted) (supportsFast bound : Bool) :
    (s.adoptInboundPeer supportsFast bound).Counted := by
  have hnext := h.next
  unfold Holders.adoptInboundPeer
  split
  · rename_i hlt
    have hlanes : ∀ pid ∈ s.lanes, 0 < pid ∧ pid < s.nextPid + 1 := fun pid hpid => by
      have := h.lanes pid hpid
      omega
    have hpids : ∀ pid p, s.peers.get? pid = some p → 0 < pid ∧ pid < s.nextPid + 1 := fun pid p hp => by
      have := h.pids pid p hp
      omega
    have hnone : s.peers.get? s.nextPid = none := by
      cases hg : s.peers.get? s.nextPid with
      | none => rfl
      | some p => exact absurd (h.pids _ p hg).2 (lt_irrefl _)
    cases bound with
    | false => exact ⟨hlanes, hpids, ⟨by simp only [Bool.false_eq_true, if_false]; omega, hlt⟩, h.exact, h.unclipped⟩
    | true =>
      refine ⟨hlanes, ?_, ⟨by simp only [if_true]; omega, hlt⟩, ?_, h.unclipped⟩
      · intro pid p hp
        simp only [if_true] at hp ⊢
        rw [OrdMap.get?_insert] at hp
        split at hp
        · omega
        · exact hpids pid p hp
      · intro i
        simp only [if_true]
        rw [shares_adopt i hnone]
        exact h.exact i
  · exact h

/-- The state after a peer's bitfield was counted anew is counted. -/
theorem Counted.update {s s' : Holders l} (h : s.Counted) {pid : Nat} {p p' : Holder} (hp : s.peers.get? pid = some p)
    (hlanes : s'.lanes = s.lanes) (hnext : s'.nextPid = s.nextPid) (hpeers : s'.peers = s.peers.insert pid p')
    (hexact : ∀ i, s'.pieceTracker.availability i = share i p'.bitfield + shares i (s.peers.erase pid))
    (hclip : s'.clipped = false) : s'.Counted := by
  refine ⟨by rw [hlanes, hnext]; exact h.lanes, ?_, by rw [hnext]; exact h.next, ?_, hclip⟩
  · intro pid' q hq
    rw [hpeers, OrdMap.get?_insert] at hq
    rw [hnext]
    split at hq
    · rename_i he
      subst he
      exact h.pids _ p hp
    · exact h.pids pid' q hq
  · intro i
    rw [hexact i, hpeers, shares_insert]

theorem Counted.replaceBitfield {s : Holders l} (h : s.Counted) {pid : Nat} {p p' : Holder} (hp : s.peers.get? pid = some p)
    (hb : p'.bitfield = p.bitfield) (replacement : List UInt8) : (s.replaceBitfield pid p' replacement).Counted := by
  obtain ⟨hexact, hclip⟩ := replacePeerBitfield_exact p'.bitfield replacement
    (fun i => by rw [hb]; exact h.split hp i) (fun i => h.shares_lt i pid)
  exact h.update hp rfl rfl rfl hexact (by simp [Holders.replaceBitfield, h.unclipped, hclip])

/-- Accepting the first message about its pieces does not touch a peer's bitfield. -/
theorem acceptInitialAvailability_bitfield (p : Holder) (availability : InitialAvailability) :
    (p.acceptInitialAvailability availability).1.bitfield = p.bitfield := by
  unfold Holder.acceptInitialAvailability
  split <;> rfl

theorem Counted.receive {s : Holders l} (h : s.Counted) (pid : Nat) (msg : HaveMessage) : (s.receive pid msg).Counted := by
  unfold Holders.receive
  split
  · exact h
  · rename_i p hp
    have hfirst : ∀ availability replacement, (if (p.acceptInitialAvailability availability).2 then
        s.replaceBitfield pid (p.acceptInitialAvailability availability).1 replacement else s).Counted := by
      intro availability replacement
      split
      · exact h.replaceBitfield hp (acceptInitialAvailability_bitfield p availability) replacement
      · exact h
    cases msg with
    | have' pieceIndex =>
      simp only
      split
      · exact h
      · rename_i vpi _
        obtain ⟨hexact, hclip⟩ := updatePeerHave_exact vpi (h.split hp) (fun i => h.shares_lt i pid)
        exact h.update hp rfl rfl rfl hexact (by simp [h.unclipped, hclip])
    | bitfield bytes =>
      simp only
      by_cases hfast : p.supportsFast = true
      · rw [if_pos hfast]
        exact hfirst _ _
      · rw [if_neg hfast]
        exact h.replaceBitfield hp rfl bytes
    | haveAll | haveNone =>
      simp only
      split
      · exact h
      · exact hfirst _ _

theorem Counted.disconnected {s : Holders l} (h : s.Counted) (pid : Nat) : (s.disconnected pid).Counted := by
  have hlanes : ∀ pid' ∈ s.lanes.filter (fun lane => lane != pid), 0 < pid' ∧ pid' < s.nextPid := by
    intro pid' hpid'
    exact h.lanes pid' (List.mem_of_mem_filter hpid')
  unfold Holders.disconnected
  simp only
  split
  · exact ⟨hlanes, h.pids, h.next, h.exact, h.unclipped⟩
  rename_i dead hdead
  obtain ⟨hexact, hclip⟩ := removePeerBitfield_exact (h.split hdead)
  refine ⟨hlanes, ?_, h.next, hexact, by simp [h.unclipped, hclip]⟩
  intro pid' p hp
  simp only at hp ⊢
  rw [OrdMap.get?_erase] at hp
  split at hp
  · cases hp
  · exact h.pids pid' p hp

/-- Every event keeps the counts exact. -/
theorem Counted.apply {s : Holders l} (h : s.Counted) (e : HoldersEvent l) : (e.apply s).Counted := by
  cases e with
  | dial => exact h.dial
  | handshook pid supportsFast refused => exact h.handshook pid supportsFast refused
  | adoptInboundPeer supportsFast bound => exact h.adoptInboundPeer supportsFast bound
  | receive pid msg => exact h.receive pid msg
  | disconnected pid => exact h.disconnected pid
  | tracker op =>
    simp only [HoldersEvent.apply]
    split
    · rename_i hop
      have hav := PieceTracker.apply_availability hop s.pieceTracker
      exact ⟨h.lanes, h.pids, h.next, fun i => by simp only [hav]; exact h.exact i, h.unclipped⟩
    · exact h

end Holders

end Risuko
