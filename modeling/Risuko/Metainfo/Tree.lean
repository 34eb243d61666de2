import Risuko.Merkle.Tree
import Risuko.Metainfo.Parse

/-!
# The file tree and the two layouts

The part of `core/metainfo.rs` that reads the file tree of a v2 torrent, compares it with the file list of a hybrid one, and lays the
files of a v2 torrent out as a v1 list; and `parse_torrent`.
-/

namespace Risuko

namespace Metainfo

open Bencode (Value ByteVec)

/-! ## The file tree -/

/-- The loop of `parse_file_tree` that gives a child a name of its own: the name and the number it used last. A name with another
number is another name, so that one turn more than there are used names finds a free one. -/
def uniqueName (used : List Text) (base : Text) : ℕ → Text → ℕ → Text × ℕ
  | 0, name, next => (name, next)
  | fuel + 1, name, next =>
    if name ∈ used then uniqueName used base fuel (numberedName base (next + 1)) (next + 1) else (name, next)

/-- The name of a child in `parse_file_tree`, among the names that are used, and the numbers used after it. -/
def childName (used : List Text) (suffixes : Text → ℕ) (name : Text) : Text × (Text → ℕ) :=
  if name ∈ used then
    let unique := uniqueName used name (used.length + 1) name (suffixes name)
    (unique.1, Function.update suffixes name unique.2)
  else (name, suffixes)

/-- The leaf of a file in `parse_file_tree`. -/
def parseLeaf (leaf : Value) : Except MetaError FileTreeNode :=
  match leaf.asDict with
  | none => .error (.badInfoV2 "file tree leaf payload not dict")
  | some _ =>
    match (leaf.get "length").bind Value.asInt with
    | none => .error (.badInfoV2 "file tree leaf length missing")
    | some length =>
      if length.toInt < 0 then .error (.badInfoV2 "file tree leaf length negative")
      else
        let piecesRoot := (leaf.get "pieces root").bind Value.asBytes
        if piecesRoot.any (fun b => b.length ≠ 32) then .error (.badInfoV2 "pieces root not 32 bytes")
        else if 0 < length.toInt && piecesRoot.isNone then
          .error (.badInfoV2 "file tree leaf missing pieces root for non-empty file")
        else .ok (.file length.toInt.toNat (piecesRoot.map Id32.ofSlice) (isExecutableEntry leaf))

mutual

/-- `parse_file_tree`. -/
def parseFileTree (platform : Platform) : Value → Except MetaError FileTreeNode
  | .dict [(key, leaf)] =>
    if key.data.isEmpty then parseLeaf leaf
    else
      match parseChildren platform [(key, leaf)] [] (fun _ => 0) with
      | .error e => .error e
      | .ok children => .ok (.dir children)
  | .dict dict =>
    match parseChildren platform dict [] (fun _ => 0) with
    | .error e => .error e
    | .ok children => .ok (.dir children)
  | _ => .error (.badInfoV2 "file tree node not dict")

/-- The loop of `parse_file_tree` over the children, with the names that are used and the numbers used after each. -/
def parseChildren (platform : Platform) :
    List (ByteVec × Value) → List Text → (Text → ℕ) → Except MetaError (List (Text × FileTreeNode))
  | [], _, _ => .ok []
  | (key, child) :: rest, used, suffixes =>
    if !isSafeComponent platform (componentText key.data) then .error (.badInfoV2 "file tree key unsafe")
    else
      let unique := childName used suffixes (componentText key.data)
      match parseFileTree platform child with
      | .error e => .error e
      | .ok node =>
        match parseChildren platform rest (unique.1 :: used) unique.2 with
        | .error e => .error e
        | .ok children => .ok ((unique.1, node) :: children)

end

mutual

/-- `flatten_file_tree`: the files and the empty files under a node. -/
def flattenFileTree : FileTreeNode → List Text → Except MetaError (List TorrentMetaInfoV2 × List (List Text))
  | .dir children, path => flattenChildren children path
  | .file length piecesRoot executable, path =>
    if length = 0 then .ok ([], [path])
    else
      match piecesRoot with
      | none => .error (.badInfoV2 "non-empty file missing pieces root")
      | some root => .ok ([⟨path, length, root, executable⟩], [])

def flattenChildren : List (Text × FileTreeNode) → List Text → Except MetaError (List TorrentMetaInfoV2 × List (List Text))
  | [], _ => .ok ([], [])
  | (name, child) :: rest, path =>
    match flattenFileTree child (path ++ [name]) with
    | .error e => .error e
    | .ok (files, empty) =>
      match flattenChildren rest path with
      | .error e => .error e
      | .ok (moreFiles, moreEmpty) => .ok (files ++ moreFiles, empty ++ moreEmpty)

end

mutual

/-- `collect_tree_files`: the paths and lengths of the files under a node. -/
def collectTreeFiles : Value → List Text → List (List Text × ℕ)
  | .dict [(key, leaf)], path =>
    if key.data.isEmpty then [(path, (((leaf.get "length").bind Value.asInt).getD 0).toInt.toNat)]
    else collectChildren [(key, leaf)] path
  | .dict dict, path => collectChildren dict path
  | _, _ => []

def collectChildren : List (ByteVec × Value) → List Text → List (List Text × ℕ)
  | [], _ => []
  | (key, child) :: rest, path => collectTreeFiles child (path ++ [componentText key.data]) ++ collectChildren rest path

end

/-! ## Version 2 -/

/-- `v2_alignment_padding`. -/
def v2AlignmentPadding (offset fileLength : ℕ) (pieceLength : UInt32) : ℕ :=
  if fileLength = 0 || pieceLength = 0 then 0
  else
    match offset % pieceLength.toNat with
    | 0 => 0
    | rem => pieceLength.toNat - rem

/-- `v2_aligned_piece_count`. -/
def v2AlignedPieceCount (files : List TorrentMetaInfoV2) (pieceLength : UInt32) : Option ℕ :=
  checkedSum (files.map fun f => divCeil f.length pieceLength.toNat)

/-- `validate_info_v2`, from the file tree on. -/
def validateFileTree (platform : Platform) (value : Value) (name : Text) (pieceLength : UInt32) (fileTreeValue : Value) :
    Except MetaError ValidatedTorrentMetaV2Info :=
  match parseFileTree platform fileTreeValue with
  | .error e => .error e
  | .ok (.file ..) => .error (.badInfoV2 "file tree root is a file")
  | .ok fileTree =>
    match flattenFileTree fileTree [] with
    | .error e => .error e
    | .ok (files, emptyFiles) =>
      if files.isEmpty then .error (.badInfoV2 "file tree has no files")
      else
        match checkedSum (files.map TorrentMetaInfoV2.length) with
        | none => .error (.badInfoV2 "total file length overflow")
        | some total =>
          if total = 0 then .error .zeroLength
          else
            match checkPieceCount total pieceLength with
            | .error e => .error e
            | .ok () =>
              if (v2AlignedPieceCount files pieceLength).all (fun n => maxPieces < n) then .error (.badInfoV2 "too many pieces")
              else .ok ⟨name, pieceLength, infoPrivate value, files, emptyFiles⟩

/-- `validate_info_v2`. -/
def validateInfoV2 (platform : Platform) (value : Value) : Except MetaError ValidatedTorrentMetaV2Info :=
  match value.asDict with
  | none => .error (.badInfoV2 "info not dict")
  | some _ =>
    match (value.get "meta version").bind Value.asInt with
    | none => .error (.badInfoV2 "meta version missing")
    | some metaVersion =>
      if metaVersion ≠ 2 then .error (.badInfoV2 "unsupported meta version")
      else
        match parsePieceLength value .badInfoV2 with
        | .error e => .error e
        | .ok pieceLength =>
          if pieceLength.toNat < 16 * 1024 || !isPowerOfTwo pieceLength.toNat then
            .error (.badInfoV2 "piece length must be a power of two and >= 16 KiB")
          else
            match torrentName value with
            | none => .error (.badUtf8 "v2 name")
            | some name =>
              if !isSafeComponent platform name then .error (.badInfoV2 "v2 name unsafe")
              else
                match value.get "file tree" with
                | none => .error (.badInfoV2 "file tree missing")
                | some fileTreeValue => validateFileTree platform value name pieceLength fileTreeValue

/-! ## Two lists of one data -/

/-- The loop of `check_hybrid_layout` over the v1 files: the files that are expected, and the offsets in both layouts. -/
def checkHybridFiles (pieceLength : UInt32) : List TorrentMetaInfo → List (List Text × ℕ) → ℕ → ℕ →
    Except MetaError (List (List Text × ℕ) × ℕ × ℕ)
  | [], expected, v1Offset, v2Offset => .ok (expected, v1Offset, v2Offset)
  | file :: rest, expected, v1Offset, v2Offset =>
    if file.padding then checkHybridFiles pieceLength rest expected (v1Offset + file.length) v2Offset
    else
      match expected with
      | [] => .error .hybridMismatch
      | (path, length) :: expected =>
        if file.path ≠ path || file.length ≠ length then .error .hybridMismatch
        else if 0 < file.length then
          let start := v2Offset + v2AlignmentPadding v2Offset file.length pieceLength
          if v1Offset ≠ start then .error .hybridMismatch
          else checkHybridFiles pieceLength rest expected (v1Offset + file.length) (start + file.length)
        else checkHybridFiles pieceLength rest expected (v1Offset + file.length) v2Offset

/-- `check_hybrid_layout`. -/
def checkHybridLayout (v1 : ValidatedTorrentMetaV1Info) (infoValue : Value) (v2 : ValidatedTorrentMetaV2Info) :
    Except MetaError Unit :=
  let treeFiles := ((infoValue.get "file tree").map fun tree => collectTreeFiles tree []).getD []
  match checkHybridFiles v2.pieceLength v1.files treeFiles 0 0 with
  | .error e => .error e
  | .ok (expected, v1Offset, v2Offset) =>
    if !expected.isEmpty || divCeil v1Offset v1.pieceLength.toNat ≠ divCeil v2Offset v2.pieceLength.toNat then
      .error .hybridMismatch
    else .ok ()

/-- `dedupe_file_list`. -/
def dedupeFileList (platform : Platform) (fuel : ℕ) (files : List TorrentMetaInfo) : Option (List TorrentMetaInfo) :=
  (dedupePaths platform fuel (files.map TorrentMetaInfo.path) (files.map TorrentMetaInfo.padding)).map fun paths =>
    (files.zip paths).map fun e => { e.1 with path := e.2 }

/-- The loop of `synthesize_v1_facade_from_v2` over the files. -/
def facadeFiles (pieceLength : UInt32) : List TorrentMetaInfoV2 → ℕ → List TorrentMetaInfo
  | [], _ => []
  | f :: rest, offset =>
    let pad := v2AlignmentPadding offset f.length pieceLength
    let file : TorrentMetaInfo := ⟨f.path, f.length, false, f.executable⟩
    if 0 < pad then
      ⟨[".pad".toList, showNat pad], pad, true, false⟩ :: file :: facadeFiles pieceLength rest (offset + pad + f.length)
    else file :: facadeFiles pieceLength rest (offset + f.length)

/-- `synthesize_v1_facade_from_v2`. -/
def synthesizeV1FacadeFromV2 (platform : Platform) (fuel : ℕ) (v2 : ValidatedTorrentMetaV2Info) :
    Option ValidatedTorrentMetaV1Info :=
  let singleFileMode := v2.emptyFiles.isEmpty && (v2.files.map TorrentMetaInfoV2.path = [[v2.name]])
  let empty := v2.emptyFiles.map fun path => (⟨path, 0, false, false⟩ : TorrentMetaInfo)
  (dedupeFileList platform fuel (facadeFiles v2.pieceLength v2.files 0 ++ empty)).map fun files =>
    ⟨v2.name, v2.pieceLength, [], v2.isPrivate, files, singleFileMode⟩

end Metainfo

end Risuko
