import Risuko.Lengths
import Risuko.Storage.FileSet

/-!
# The progress of files

`add_piece_progress` of `torrent.rs`: the bytes of a piece are added to the files it covers, and the files it completes are returned.
-/

namespace Risuko

/-- `saturating_add` of `u64`. -/
def saturatingAdd (a b : Nat) : Nat := min (a + b) (2 ^ 64 - 1)

/-- What `add_piece_progress` updates of the stats. -/
structure TorrentStats where
  progressBytes : Nat
  fileProgress : List Nat

/-- The loop over the spans of a piece: the bytes done of every file, and the files completed. -/
def addSpans (set : FileSet) : List Span → List Nat → List Nat × List Nat
  | [], progress => (progress, [])
  | span :: rest, progress =>
    let length := (set.files[span.fileIndex]?.map FileInfo.length).getD 0
    let before := progress.getD span.fileIndex 0
    let done := saturatingAdd before span.len
    let (after, completed) := addSpans set rest (progress.set span.fileIndex done)
    (after, if before < length ∧ length ≤ done then span.fileIndex :: completed else completed)

namespace TorrentStats

/-- `add_piece_progress`. -/
def addPieceProgress (stats : TorrentStats) {l : Lengths} (set : FileSet) (piece : ValidPieceIndex l) : TorrentStats × List Nat :=
  let offset := l.pieceOffset piece
  let len := l.pieceLengthOf piece
  let progress := stats.fileProgress ++ List.replicate (set.files.length - stats.fileProgress.length) 0
  let (progress, completed) := addSpans set (set.collectSpans offset len) progress
  (⟨saturatingAdd stats.progressBytes len, progress⟩, completed)

/-- Pieces one after the other: the stats at the end, and what each call returned. -/
def addPieces {l : Lengths} (set : FileSet) : TorrentStats → List (ValidPieceIndex l) → TorrentStats × List (List Nat)
  | stats, [] => (stats, [])
  | stats, piece :: rest =>
    let (stats, completed) := stats.addPieceProgress set piece
    let (stats, later) := addPieces set stats rest
    (stats, completed :: later)

end TorrentStats

end Risuko
