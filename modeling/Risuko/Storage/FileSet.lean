import Mathlib.Algebra.Ring.Nat

/-!
# File sets

The files of a torrent laid end to end (`storage/file_info.rs`), and the spans of files that a range of the torrent covers.
-/

namespace Risuko

/-- What the storage reads of a file of the torrent. Its path is told by its index: `dedupe_paths` keeps paths distinct. -/
structure FileInfo where
  length : Nat
  offset : Nat
  padding : Bool
deriving DecidableEq

/-- Files that follow each other without a gap, from one offset to another. -/
def Contiguous : Nat → List FileInfo → Nat → Prop
  | start, [], stop => start = stop
  | start, f :: rest, stop => f.offset = start ∧ Contiguous (start + f.length) rest stop

/-- A layout: files without gaps from offset zero on. -/
structure FileSet where
  files : List FileInfo
  totalLength : Nat
  contiguous : Contiguous 0 files totalLength

/-- A file as the metainfo describes it. -/
structure TorrentMetaInfo where
  pathIsEmpty : Bool
  length : Nat
  padding : Bool

structure Span where
  fileIndex : Nat
  fileOffset : Nat
  len : Nat
deriving DecidableEq

namespace FileSet

/-- The loop of `from_meta`: the files from an offset on. -/
def layOut : Nat → List TorrentMetaInfo → List FileInfo
  | _, [] => []
  | offset, f :: rest =>
    { length := f.length, offset := offset, padding := f.padding || f.pathIsEmpty } :: layOut (offset + f.length) rest

theorem contiguous_layOut (offset : Nat) (files : List TorrentMetaInfo) :
    Contiguous offset (layOut offset files) (offset + (files.map TorrentMetaInfo.length).sum) := by
  induction files generalizing offset with
  | nil => simp [layOut, Contiguous]
  | cons f rest ih =>
    refine ⟨rfl, ?_⟩
    have := ih (offset + f.length)
    simpa [Nat.add_assoc] using this

theorem length_layOut (offset : Nat) (files : List TorrentMetaInfo) : (layOut offset files).length = files.length := by
  induction files generalizing offset with
  | nil => rfl
  | cons f rest ih => rw [layOut, List.length_cons, ih, List.length_cons]

/-- `FileSet::from_meta`. -/
def fromMeta (files : List TorrentMetaInfo) : FileSet where
  files := layOut 0 files
  totalLength := (files.map TorrentMetaInfo.length).sum
  contiguous := by simpa using contiguous_layOut 0 files

/-- `file_index_for`: the file that holds the offset; without one, where a binary search ends, but within the list. -/
def fileIndexFor (set : FileSet) (offset : Nat) : Nat :=
  match set.files.findIdx? (fun f => decide (f.offset ≤ offset) && decide (offset < f.offset + f.length)) with
  | some i => i
  | none => min (set.files.countP (fun f => decide (f.offset ≤ offset) && decide (f.offset + f.length ≤ offset))) (set.files.length - 1)

/-- `SpansIter`, run to its end over the files from an index on. A span that ends inside its file uses up what remained, so it is
the last one. -/
def spansFrom (idx : Nat) : List FileInfo → Nat → Nat → List Span
  | [], _, _ => []
  | f :: rest, cursor, remaining =>
    if remaining = 0 then []
    else if f.length = 0 then spansFrom (idx + 1) rest cursor remaining
    else
      let fileOffset := cursor - f.offset
      let take := min (f.length - fileOffset) remaining
      { fileIndex := idx, fileOffset := fileOffset, len := take } ::
        (if f.offset + f.length ≤ cursor + take then spansFrom (idx + 1) rest (cursor + take) (remaining - take) else [])

/-- `spans_for`. -/
def spansFor (set : FileSet) (offset len : Nat) : List Span :=
  let idx := set.fileIndexFor offset
  spansFrom idx (set.files.drop idx) offset len

/-- `is_padding`. -/
def isPadding (set : FileSet) (idx : Nat) : Bool := set.files[idx]?.elim false FileInfo.padding

end FileSet

end Risuko

/-!
## The iterator over spans

`SpansIter` of `storage/file_info.rs`, with the arithmetic of `u64` as a release build has it: a difference below zero wraps around. A
debug build panics there.
-/

namespace Risuko

def wrappingAdd (a b : Nat) : Nat := (a + b) % 2 ^ 64

def wrappingSub (a b : Nat) : Nat := (2 ^ 64 + a - b) % 2 ^ 64

structure SpansIter where
  cursor : Nat
  remaining : Nat
  idx : Nat

namespace FileSet

/-- `spans_for`. -/
def spansIter (set : FileSet) (offset len : Nat) : SpansIter where
  cursor := offset
  remaining := len
  idx := set.fileIndexFor offset

/-- The loop of `next` over files without data. -/
def skipEmpty (set : FileSet) (idx : Nat) : Nat := idx + ((set.files.drop idx).takeWhile fun f => f.length = 0).length

/-- `next`. -/
def next (set : FileSet) (it : SpansIter) : Option (Span × SpansIter) :=
  if it.remaining = 0 then none
  else
    let idx := set.skipEmpty it.idx
    match set.files[idx]? with
    | none => none
    | some f =>
      let fileOffset := wrappingSub it.cursor f.offset
      let available := wrappingSub f.length fileOffset
      let take := min available it.remaining
      let cursor := wrappingAdd it.cursor take
      some (⟨idx, fileOffset, take⟩,
        { cursor := cursor, remaining := it.remaining - take, idx := if f.offset + f.length ≤ cursor then idx + 1 else idx })

/-- The spans the iterator yields, in so many calls at most. -/
def collect (set : FileSet) : Nat → SpansIter → List Span
  | 0, _ => []
  | fuel + 1, it =>
    match set.next it with
    | none => []
    | some (span, it) => span :: set.collect fuel it

/-- `spans_for(..).collect()`. A span ends its file or is the last one, so that there are no more spans than files. -/
def collectSpans (set : FileSet) (offset len : Nat) : List Span := set.collect (set.files.length + 1) (set.spansIter offset len)

end FileSet

end Risuko
