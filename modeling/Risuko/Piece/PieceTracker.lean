import Risuko.Lengths
import Risuko.Lib.Bits

/-!
# The piece tracker

`piece/piece_tracker.rs`: which pieces are wanted, local and in flight, with three running summaries (a count, a byte total and
a bitmap), the number of peers that have each piece, and the order in which pieces are picked. The order is a cached list
that is rebuilt, sorted again or pruned only sometimes, and a cursor past its dead prefix.

A vector with one element for each piece is a function on the valid indices. `underflow` is a ghost field: it records that
a subtraction on `left` or `requestable` went below zero, and no function reads it.
-/

namespace Risuko

structure PieceTracker (l : Lengths) where
  haveLocal : ValidPieceIndex l → Bool
  wanted : ValidPieceIndex l → Bool
  needed : List UInt8
  left : Nat
  inFlight : ValidPieceIndex l → Bool
  availability : ValidPieceIndex l → Nat
  requestable : Nat
  sorted : List (ValidPieceIndex l)
  rebuild : Bool
  resort : Bool
  deadPrefix : Nat
  resortDeferred : Nat
  orderTie : List UInt64
  underflow : Bool

def resortEveryTickPieces : Nat := 65536

def maxResortDeferral : Nat := 20

/-- `scramble`: a bijection of the 64-bit words, so that no two pieces get the same salted tie. -/
def scramble (x : UInt64) : UInt64 :=
  let x := (x ^^^ (x >>> 30)) * 0xbf58476d1ce4e5b9
  let x := (x ^^^ (x >>> 27)) * 0x94d049bb133111eb
  x ^^^ (x >>> 31)

namespace PieceTracker

variable {l : Lengths}

/-- `mark_needed`: set or clear the bit of one piece. -/
def markNeeded (t : PieceTracker l) (i : ValidPieceIndex l) : PieceTracker l :=
  let byte := t.needed.getD (i.val / 8) 0
  { t with
    needed := t.needed.set (i.val / 8)
      (if t.wanted i && !t.haveLocal i then byte ||| bitMask i.val else byte &&& ~~~bitMask i.val) }

/-- `rebuild_needed`. -/
def rebuildNeeded (t : PieceTracker l) : PieceTracker l :=
  (List.finRange l.totalPieces).foldl markNeeded { t with needed := List.replicate l.pieceBitfieldBytes 0 }

/-- `PieceTracker::new`. -/
def new (l : Lengths) : PieceTracker l :=
  rebuildNeeded
    { haveLocal := fun _ => false
      wanted := fun _ => true
      needed := []
      left := l.totalLength
      inFlight := fun _ => false
      availability := fun _ => 0
      requestable := l.totalPieces
      sorted := []
      rebuild := true
      resort := false
      deadPrefix := 0
      resortDeferred := 0
      orderTie := []
      underflow := false }

/-- `with_order_salt`. -/
def withOrderSalt (t : PieceTracker l) (salt : UInt64) : PieceTracker l :=
  { t with orderTie := (List.range l.totalPieces).map (fun i => scramble (UInt64.ofNat i ^^^ salt)) }

/-- `counts_requestable`, and `is_requestable`. -/
def countsRequestable (t : PieceTracker l) (i : ValidPieceIndex l) : Bool :=
  t.wanted i && !t.haveLocal i && !t.inFlight i

/-- `settle`: move the count after the piece changed from `before`. -/
def settle (t : PieceTracker l) (i : ValidPieceIndex l) (before : Bool) : PieceTracker l :=
  match before, t.countsRequestable i with
  | false, true => { t with requestable := t.requestable + 1 }
  | true, false =>
    { t with requestable := t.requestable - 1, underflow := t.underflow || decide (t.requestable < 1) }
  | _, _ => t

/-- `recount_requestable`. -/
def recountRequestable (t : PieceTracker l) : PieceTracker l :=
  { t with requestable := ((List.finRange l.totalPieces).filter t.countsRequestable).length }

/-- The part of `set_local` about the bytes left: a wanted piece that becomes local no longer counts, and one that is lost
counts again and makes the order be rebuilt. -/
def settleLeft (t : PieceTracker l) (idx : ValidPieceIndex l) (have' : Bool) : PieceTracker l :=
  if t.haveLocal idx != have' && t.wanted idx then
    let len := l.pieceLengthOf idx
    if have' then { t with left := t.left - len, underflow := t.underflow || decide (t.left < len) }
    else { t with left := t.left + len, rebuild := true, deadPrefix := 0 }
  else t

/-- `set_local`. -/
def setLocal (t : PieceTracker l) (idx : ValidPieceIndex l) (have' : Bool) : PieceTracker l :=
  let before := t.countsRequestable idx
  let t := t.settleLeft idx have'
  let t := markNeeded { t with haveLocal := Function.update t.haveLocal idx have' } idx
  let t := if have' then { t with inFlight := Function.update t.inFlight idx false } else t
  settle { t with resort := true } idx before

/-- `has_local`. -/
def hasLocal (t : PieceTracker l) (idx : ValidPieceIndex l) : Bool := t.haveLocal idx

/-- `bytes_of`. -/
def bytesOf (l : Lengths) (include' : ValidPieceIndex l → Bool) : Nat :=
  (((List.finRange l.totalPieces).filter include').map l.pieceLengthOf).sum

/-- `scan_bytes_left`. -/
def scanBytesLeft (t : PieceTracker l) : Nat := bytesOf l (fun i => t.wanted i && !t.haveLocal i)

/-- `set_wanted`: a selection of the wrong length is ignored. -/
def setWanted (t : PieceTracker l) (wanted : List Bool) : PieceTracker l :=
  if h : wanted.length = l.totalPieces then
    let t := rebuildNeeded { t with wanted := fun i => wanted.get ⟨i.val, by rw [h]; exact i.isLt⟩ }
    let t := { t with rebuild := true, deadPrefix := 0 }
    recountRequestable { t with left := t.scanBytesLeft }
  else t

/-- `is_wanted`. -/
def isWanted (t : PieceTracker l) (idx : ValidPieceIndex l) : Bool := t.wanted idx

/-- `is_useful`. -/
def isUseful (t : PieceTracker l) (idx : ValidPieceIndex l) : Bool := t.wanted idx && !t.haveLocal idx

/-- `is_requestable`. -/
def isRequestable (t : PieceTracker l) (idx : ValidPieceIndex l) : Bool :=
  t.wanted idx && !t.haveLocal idx && !t.inFlight idx

/-- `mark_in_flight`. -/
def markInFlight (t : PieceTracker l) (idx : ValidPieceIndex l) : PieceTracker l :=
  let before := t.countsRequestable idx
  settle { t with inFlight := Function.update t.inFlight idx true } idx before

/-- `clear_in_flight`. -/
def clearInFlight (t : PieceTracker l) (idx : ValidPieceIndex l) : PieceTracker l :=
  let before := t.countsRequestable idx
  let t := if t.inFlight idx then { t with deadPrefix := 0 } else t
  settle { t with inFlight := Function.update t.inFlight idx false } idx before

/-! ## Availability -/

/-- `bump_availability`: saturating 32-bit counts. -/
def bumpAvailability (av : ValidPieceIndex l → Nat) (i : ValidPieceIndex l) (up : Bool) : ValidPieceIndex l → Nat :=
  Function.update av i (if up then min (av i + 1) (2 ^ 32 - 1) else av i - 1)

/-- The inner loop of `for_each_set_bit`, over the bits of one byte; it stops at the first set bit past the last piece. -/
def bumpByte (up : Bool) (byteIdx : Nat) (b : UInt8) : List Nat → (ValidPieceIndex l → Nat) → ValidPieceIndex l → Nat
  | [], av => av
  | bit :: bits, av =>
    if byteHas b bit then
      if h : byteIdx * 8 + bit < l.totalPieces then
        bumpByte up byteIdx b bits (bumpAvailability av ⟨byteIdx * 8 + bit, h⟩ up)
      else av
    else bumpByte up byteIdx b bits av

/-- `for_each_set_bit`. -/
def forEachSetBit (t : PieceTracker l) (bitfield : List UInt8) (up : Bool) : PieceTracker l :=
  { t with
    resort := true
    availability := bitfield.zipIdx.foldl
      (fun av e => if e.1 = 0 then av else bumpByte up e.2 e.1 (List.range 8) av) t.availability }

/-- `add_peer_bitfield`. -/
def addPeerBitfield (t : PieceTracker l) (bitfield : List UInt8) : PieceTracker l := t.forEachSetBit bitfield true

/-- `remove_peer_bitfield`. -/
def removePeerBitfield (t : PieceTracker l) (bitfield : List UInt8) : PieceTracker l := t.forEachSetBit bitfield false

/-- `update_peer_have`: the tracker, the peer's bitfield and whether the piece is new to the peer. -/
def updatePeerHave (t : PieceTracker l) (peerBitfield : List UInt8) (idx : ValidPieceIndex l) :
    PieceTracker l × List UInt8 × Bool :=
  match peerBitfield[idx.val / 8]? with
  | none => (t, peerBitfield, false)
  | some slot =>
    if byteHas slot idx.val then (t, peerBitfield, false)
    else
      let t := { t with availability := bumpAvailability t.availability idx true }
      let t := if t.wanted idx && !t.haveLocal idx then { t with resort := true } else t
      (t, peerBitfield.set (idx.val / 8) (slot ||| bitMask idx.val), true)

/-- `replace_peer_bitfield`: the tracker and the peer's bitfield, which keeps its length. -/
def replacePeerBitfield (t : PieceTracker l) (peerBitfield replacement : List UInt8) : PieceTracker l × List UInt8 :=
  let t := t.removePeerBitfield peerBitfield
  let copied := replacement.take peerBitfield.length
  let bitfield := copied ++ List.replicate (peerBitfield.length - copied.length) 0
  (t.addPeerBitfield bitfield, bitfield)

/-- `is_complete`. -/
def isComplete (t : PieceTracker l) : Bool := t.left == 0

/-- `any_useful`. -/
def anyUseful (t : PieceTracker l) (peerBitfield : List UInt8) : Bool :=
  (peerBitfield.zip t.needed).any (fun p => (p.1 &&& p.2) != 0)

/-! ## The order of picking -/

/-- The key of a piece in the order: its availability, then its tie. -/
def rarityKey (t : PieceTracker l) (i : ValidPieceIndex l) : Nat × Nat :=
  (t.availability i, (t.orderTie[i.val]?.map UInt64.toNat).getD i.val)

/-- The order of `sort_by_rarity`, lexicographic in the key. No two pieces share a key, so an unstable sort has one result. -/
def rarityLe (t : PieceTracker l) (i j : ValidPieceIndex l) : Prop :=
  (t.rarityKey i).1 < (t.rarityKey j).1 ∨ ((t.rarityKey i).1 = (t.rarityKey j).1 ∧ (t.rarityKey i).2 ≤ (t.rarityKey j).2)

instance (t : PieceTracker l) : DecidableRel t.rarityLe := fun i j =>
  inferInstanceAs (Decidable ((t.rarityKey i).1 < (t.rarityKey j).1 ∨
    ((t.rarityKey i).1 = (t.rarityKey j).1 ∧ (t.rarityKey i).2 ≤ (t.rarityKey j).2)))

/-- `sort_by_rarity`. -/
def sortByRarity (t : PieceTracker l) : PieceTracker l :=
  { t with sorted := t.sorted.insertionSort t.rarityLe, resort := false, resortDeferred := 0, deadPrefix := 0 }

/-- `rebuild_sorted`. -/
def rebuildSorted (t : PieceTracker l) : PieceTracker l :=
  sortByRarity
    { t with sorted := (List.finRange l.totalPieces).filter (fun i => !(t.haveLocal i || !t.wanted i)), rebuild := false }

/-- `refresh_order`: a long list waits up to twenty calls before it is sorted again. -/
def refreshOrder (t : PieceTracker l) : PieceTracker l :=
  if t.rebuild then t.rebuildSorted
  else if t.resort then
    let wait := t.sorted.length / resortEveryTickPieces
    if t.resortDeferred < min wait maxResortDeferral then { t with resortDeferred := t.resortDeferred + 1 }
    else sortByRarity { t with sorted := t.sorted.filter (fun i => t.wanted i && !t.haveLocal i) }
  else t

/-- The loop of `next_requestable` over the rest of the list: the piece found, the cursor after it and the dead prefix. -/
def scanFrom (t : PieceTracker l) (peerBitfield : List UInt8) :
    List (ValidPieceIndex l) → Nat → Nat → Option (ValidPieceIndex l) × Nat × Nat
  | [], cursor, dead => (none, cursor, dead)
  | vpi :: rest, cursor, dead =>
    let requestable := t.wanted vpi && !t.haveLocal vpi && !t.inFlight vpi
    let dead := if !requestable && cursor == dead then dead + 1 else dead
    if requestable && bitAt peerBitfield vpi.val then (some vpi, cursor + 1, dead)
    else t.scanFrom peerBitfield rest (cursor + 1) dead

/-- `next_requestable`: the tracker, the piece found and the cursor. -/
def nextRequestable (t : PieceTracker l) (peerBitfield : List UInt8) (cursor : Nat) :
    PieceTracker l × Option (ValidPieceIndex l) × Nat :=
  let t := if t.rebuild then t.rebuildSorted else t
  let cursor := max cursor t.deadPrefix
  let r := t.scanFrom peerBitfield (t.sorted.drop cursor) cursor t.deadPrefix
  ({ t with deadPrefix := r.2.2 }, r.1, r.2.1)

/-- `choose_missing_pieces`. -/
def chooseMissingPieces (t : PieceTracker l) : List (ValidPieceIndex l) :=
  (List.finRange l.totalPieces).filter (fun i => !t.haveLocal i && !t.inFlight i && t.wanted i)

end PieceTracker

/-! ## Calls -/

/-- The calls that change a piece tracker, with their arguments. -/
inductive PieceOp (l : Lengths) where
  | setLocal (idx : ValidPieceIndex l) (have' : Bool)
  | setWanted (wanted : List Bool)
  | markInFlight (idx : ValidPieceIndex l)
  | clearInFlight (idx : ValidPieceIndex l)
  | updatePeerHave (peerBitfield : List UInt8) (idx : ValidPieceIndex l)
  | addPeerBitfield (bitfield : List UInt8)
  | removePeerBitfield (bitfield : List UInt8)
  | replacePeerBitfield (peerBitfield replacement : List UInt8)
  | refreshOrder
  | nextRequestable (peerBitfield : List UInt8) (cursor : Nat)

/-- The tracker after a call. -/
def PieceOp.apply {l : Lengths} (t : PieceTracker l) : PieceOp l → PieceTracker l
  | .setLocal idx have' => t.setLocal idx have'
  | .setWanted wanted => t.setWanted wanted
  | .markInFlight idx => t.markInFlight idx
  | .clearInFlight idx => t.clearInFlight idx
  | .updatePeerHave peerBitfield idx => (t.updatePeerHave peerBitfield idx).1
  | .addPeerBitfield bitfield => t.addPeerBitfield bitfield
  | .removePeerBitfield bitfield => t.removePeerBitfield bitfield
  | .replacePeerBitfield peerBitfield replacement => (t.replacePeerBitfield peerBitfield replacement).1
  | .refreshOrder => t.refreshOrder
  | .nextRequestable peerBitfield cursor => (t.nextRequestable peerBitfield cursor).1

end Risuko
