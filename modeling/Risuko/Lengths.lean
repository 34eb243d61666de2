import Mathlib.Tactic

/-!
# Piece and chunk geometry

`core/lengths.rs`: how a torrent of a given total length is cut into pieces, and a piece into chunks of 16 KiB. A `Lengths`
value carries what `Lengths::new` checked and computed, so that no other value exists; the machine integers of the source
are natural numbers here, within the bounds the fields state.
-/

namespace Risuko

/-- The size of a chunk, the unit of a request. -/
def chunkSize : Nat := 16 * 1024

inductive LengthError where
  | zeroLength
  | zeroPieceLength
  | badPieceIndex (idx : Nat)
  | tooManyPieces
deriving DecidableEq

/-- Division rounding up, `div_ceil`. -/
def divCeil (a b : Nat) : Nat := (a + b - 1) / b

/-- The length of the last piece: the remainder of the total length, or a whole piece when there is none. -/
def lastLength (total piece : Nat) : Nat := if total % piece = 0 then piece else total % piece

/-- The geometry of a torrent, as `Lengths::new` builds it. -/
structure Lengths where
  totalLength : Nat
  pieceLength : Nat
  lastPieceIndex : Nat
  lastPieceLength : Nat
  total_pos : 0 < totalLength := by decide
  total_lt : totalLength < 2 ^ 64 := by decide
  piece_pos : 0 < pieceLength := by decide
  piece_lt : pieceLength < 2 ^ 32 := by decide
  last_index : lastPieceIndex + 1 = divCeil totalLength pieceLength := by decide
  last_index_lt : lastPieceIndex + 1 < 2 ^ 32 := by decide
  last_length : lastPieceLength = lastLength totalLength pieceLength := by decide

namespace Lengths

theorem divCeil_pos {a b : Nat} (ha : 0 < a) (hb : 0 < b) : 0 < divCeil a b := by
  unfold divCeil
  exact Nat.div_pos (by omega) hb

/-- `Lengths::new`. -/
def new (total : UInt64) (piece : UInt32) : Except LengthError Lengths :=
  if ht : total.toNat = 0 then .error .zeroLength
  else if hp : piece.toNat = 0 then .error .zeroPieceLength
  else if hn : divCeil total.toNat piece.toNat > 2 ^ 32 - 1 then .error .tooManyPieces
  else .ok
    { totalLength := total.toNat
      pieceLength := piece.toNat
      lastPieceIndex := divCeil total.toNat piece.toNat - 1
      lastPieceLength := lastLength total.toNat piece.toNat
      total_pos := Nat.pos_of_ne_zero ht
      total_lt := total.toNat_lt
      piece_pos := Nat.pos_of_ne_zero hp
      piece_lt := piece.toNat_lt
      last_index := Nat.sub_add_cancel (divCeil_pos (Nat.pos_of_ne_zero ht) (Nat.pos_of_ne_zero hp))
      last_index_lt := by
        rw [Nat.sub_add_cancel (divCeil_pos (Nat.pos_of_ne_zero ht) (Nat.pos_of_ne_zero hp))]
        omega
      last_length := rfl }

/-- The number of pieces. -/
def totalPieces (l : Lengths) : Nat := l.lastPieceIndex + 1

/-- The number of bytes of a bitfield with one bit for each piece. -/
def pieceBitfieldBytes (l : Lengths) : Nat := divCeil l.totalPieces 8

end Lengths

/-- A piece index that `validate_piece` accepted. -/
abbrev ValidPieceIndex (l : Lengths) := Fin l.totalPieces

namespace Lengths

variable (l : Lengths)

/-- `validate_piece`. -/
def validatePiece (idx : Nat) : Except LengthError (ValidPieceIndex l) :=
  if h : idx ≤ l.lastPieceIndex then .ok ⟨idx, Nat.lt_succ_of_le h⟩ else .error (.badPieceIndex idx)

/-- `piece_length_of`: the last piece may be short. -/
def pieceLengthOf (idx : ValidPieceIndex l) : Nat :=
  if idx.val = l.lastPieceIndex then l.lastPieceLength else l.pieceLength

/-- `piece_offset`. -/
def pieceOffset (idx : ValidPieceIndex l) : Nat := idx.val * l.pieceLength

/-- The number of chunks of a piece. -/
def chunkCount (idx : ValidPieceIndex l) : Nat := divCeil (l.pieceLengthOf idx) chunkSize

end Lengths

/-- A chunk of a piece: where it lies and how long it is. -/
structure ChunkInfo (l : Lengths) where
  pieceIndex : ValidPieceIndex l
  chunkIndex : Nat
  size : Nat
  offset : Nat
deriving DecidableEq

/-- `chunk_info`: the chunk of a piece with a given index, unless the piece ends before it (or its offset leaves `u32`). -/
def Lengths.chunkInfo (l : Lengths) (idx : ValidPieceIndex l) (chunk : Nat) : Option (ChunkInfo l) :=
  let pieceLen := l.pieceLengthOf idx
  let offset := chunk * chunkSize
  if 2 ^ 32 ≤ offset then none
  else if pieceLen ≤ offset then none
  else some { pieceIndex := idx, chunkIndex := chunk, size := min (pieceLen - offset) chunkSize, offset := offset }

namespace Lengths

variable {l : Lengths}

theorem lastLength_pos {t p : Nat} (hp : 0 < p) : 0 < lastLength t p := by
  unfold lastLength
  split
  · exact hp
  · omega

theorem lastLength_le {t p : Nat} (hp : 0 < p) : lastLength t p ≤ p := by
  unfold lastLength
  split
  · exact Nat.le_refl _
  · exact Nat.le_of_lt (Nat.mod_lt _ hp)

/-- Every piece holds at least one byte. -/
theorem pieceLengthOf_pos (idx : ValidPieceIndex l) : 0 < l.pieceLengthOf idx := by
  unfold pieceLengthOf
  split
  · rw [l.last_length]
    exact lastLength_pos l.piece_pos
  · exact l.piece_pos

theorem pieceLengthOf_lt (idx : ValidPieceIndex l) : l.pieceLengthOf idx < 2 ^ 32 := by
  have hle : l.pieceLengthOf idx ≤ l.pieceLength := by
    unfold pieceLengthOf
    split
    · rw [l.last_length]
      exact lastLength_le l.piece_pos
    · exact Nat.le_refl _
  exact lt_of_le_of_lt hle l.piece_lt

/-- A chunk index is within the piece exactly when its chunk starts inside the piece. -/
theorem lt_chunkCount_iff (idx : ValidPieceIndex l) (c : Nat) :
    c < l.chunkCount idx ↔ c * chunkSize < l.pieceLengthOf idx := by
  unfold chunkCount divCeil chunkSize
  omega

/-- Every piece has at least one chunk. -/
theorem chunkCount_pos (idx : ValidPieceIndex l) : 0 < l.chunkCount idx := by
  rw [lt_chunkCount_iff]
  have := pieceLengthOf_pos idx
  omega

/-- `chunk_info` answers for exactly the chunks of the piece. -/
theorem chunkInfo_isSome_iff (idx : ValidPieceIndex l) (c : Nat) :
    (l.chunkInfo idx c).isSome = true ↔ c < l.chunkCount idx := by
  rw [lt_chunkCount_iff]
  have := pieceLengthOf_lt idx
  unfold chunkInfo
  simp only
  split
  · simp; omega
  · split
    · simp; omega
    · simp; omega

/-- What `chunk_info` answers. -/
theorem chunkInfo_eq_some {idx : ValidPieceIndex l} {c : Nat} {info : ChunkInfo l} (h : l.chunkInfo idx c = some info) :
    c < l.chunkCount idx ∧ info.pieceIndex = idx ∧ info.chunkIndex = c ∧ info.offset = c * chunkSize ∧
      info.size = min (l.pieceLengthOf idx - c * chunkSize) chunkSize := by
  have hc : c < l.chunkCount idx := (chunkInfo_isSome_iff idx c).mp (by rw [h]; rfl)
  unfold chunkInfo at h
  simp only at h
  split at h
  · cases h
  split at h
  · cases h
  · cases h
    exact ⟨hc, rfl, rfl, rfl, rfl⟩

end Lengths

end Risuko
