import Risuko.Bencode.Parser
import Risuko.Id20
import Risuko.Lengths
import Risuko.Metainfo.Components
import Risuko.Storage.FileSet

/-!
# Metainfo

`core/metainfo.rs`: what a torrent file says about its data, for a v1, a v2 and a hybrid torrent, with every check that refuses one.
The fields that have no part in the layout of the data (trackers, nodes, web seeds, comments, hashes) are left out; none of them makes
the parser fail. Lengths are natural numbers: the parser refuses a torrent whose sums do not fit 64 bits.
-/

namespace Risuko

namespace Bencode.Value

/-- `as_int`. -/
def asInt : Value → Option Int64
  | .int v => some v
  | _ => none

/-- `as_bytes`. -/
def asBytes : Value → Option (List UInt8)
  | .bytes v => some v.data
  | _ => none

/-- `as_str`. -/
def asStr (value : Value) : Option (List Char) := value.asBytes.bind Utf8.decode

/-- `as_list`. -/
def asList : Value → Option (List Value)
  | .list v => some v
  | _ => none

/-- `as_dict`. -/
def asDict : Value → Option (List (ByteVec × Value))
  | .dict v => some v
  | _ => none

/-- `get`, of a key that is a text. -/
def get (value : Value) (key : String) : Option Value :=
  value.asDict.bind fun items => (items.find? fun e => e.1.data = key.toList.map ascii).map Prod.snd

end Bencode.Value

namespace Metainfo

open Bencode (Value ByteVec)

inductive MetaError where
  | bencode (e : Bencode.Error)
  | missingInfo
  | badInfo (reason : String)
  | badUtf8 (field : String)
  | zeroLength
  | badPieces
  | badInfoV2 (reason : String)
  | missingPieceLayers
  | hybridMismatch
  | unsupportedMetaVersion (version : Int64)

inductive MetaVersion where
  | v1
  | v2
  | hybrid
  deriving DecidableEq

/-- A file of the v1 list, with its path. -/
structure TorrentMetaInfo where
  path : List Text
  length : ℕ
  padding : Bool
  executable : Bool

/-- A file of the v2 tree that is not empty. -/
structure TorrentMetaInfoV2 where
  path : List Text
  length : ℕ
  piecesRoot : Id32
  executable : Bool

inductive FileTreeNode where
  | dir (children : List (Text × FileTreeNode))
  | file (length : ℕ) (piecesRoot : Option Id32) (executable : Bool)

structure ValidatedTorrentMetaV1Info where
  name : Text
  pieceLength : UInt32
  pieces : List UInt8
  isPrivate : Bool
  files : List TorrentMetaInfo
  singleFileMode : Bool

structure ValidatedTorrentMetaV2Info where
  name : Text
  pieceLength : UInt32
  isPrivate : Bool
  files : List TorrentMetaInfoV2
  emptyFiles : List (List Text)

/-- `BTreeMap<Id32, Vec<u8>>`, as what it holds for a key. -/
abbrev PieceLayers := Id32 → Option (List UInt8)

structure TorrentMeta where
  info : ValidatedTorrentMetaV1Info
  infoV2 : Option ValidatedTorrentMetaV2Info
  metaVersion : MetaVersion
  pieceLayers : PieceLayers
  infoBytes : List UInt8

/-! ## Fields -/

/-- `text_with_utf8_alt`. -/
def textWithUtf8Alt (value : Value) (alt key : String) : Option Text :=
  match (value.get alt).bind Value.asStr with
  | some s => some s
  | none => ((value.get key).bind Value.asBytes).map Utf8.decodeLossy

/-- `entry_path_list`. -/
def entryPathList (entry : Value) : Option (List Value) :=
  ((entry.get "path").bind Value.asList).map fun path =>
    (((entry.get "path.utf-8").bind Value.asList).filter fun l =>
      l.length = path.length && l.all fun c => c.asStr.isSome).getD path

/-- Whether the attributes of an entry contain a letter. -/
def attrContains (entry : Value) (letter : Char) : Bool :=
  (((entry.get "attr").bind Value.asBytes).map fun attr => attr.contains (Bencode.ascii letter)).getD false

def bitcometPaddingPrefix : Text := "_____padding_file_".toList

/-- `is_padding_entry`. -/
def isPaddingEntry (entry : Value) : Bool :=
  attrContains entry 'p' ||
    (((((entryPathList entry).bind List.getLast?).bind Value.asBytes).map fun c =>
      bitcometPaddingPrefix.isPrefixOf (componentText c)).getD false)

/-- `is_executable_entry`. -/
def isExecutableEntry (entry : Value) : Bool := attrContains entry 'x' && !attrContains entry 'l' && !attrContains entry 'p'

/-- `torrent_name`. -/
def torrentName (value : Value) : Option Text := (textWithUtf8Alt value "name.utf-8" "name").map replaceBackslash

/-- `check_meta_version`. -/
def checkMetaVersion (info : Value) : Except MetaError Unit :=
  match (info.get "meta version").bind Value.asInt with
  | some version => if 2 < version then .error (.unsupportedMetaVersion version) else .ok ()
  | none => .ok ()

def maxPieces : ℕ := 2 ^ 22

def maxPieceLength : ℕ := 256 * 1024 * 1024

/-- `check_piece_count`. -/
def checkPieceCount (totalLen : ℕ) (pieceLength : UInt32) : Except MetaError Unit :=
  if maxPieceLength < pieceLength.toNat then .error (.badInfo "piece length too large")
  else if maxPieces < divCeil totalLen pieceLength.toNat then .error (.badInfo "too many pieces")
  else .ok ()

/-- `info_private`. -/
def infoPrivate (info : Value) : Bool := (((info.get "private").bind Value.asInt).map fun n => decide (n ≠ 0)).getD false

/-- The sum of lengths, when it fits 64 bits. -/
def checkedSum (lengths : List ℕ) : Option ℕ :=
  lengths.foldlM (fun acc n => if acc + n < 2 ^ 64 then some (acc + n) else none) 0

/-- The checks of the piece length that both versions share. The error is made of their reason. -/
def parsePieceLength (value : Value) (bad : String → MetaError) : Except MetaError UInt32 :=
  match (value.get "piece length").bind Value.asInt with
  | none => .error (bad "piece length missing")
  | some n =>
    if n.toInt < 0 || 2 ^ 32 ≤ n.toInt || n.toInt = 0 then .error (bad "piece length out of range")
    else .ok (UInt32.ofNat n.toInt.toNat)

/-! ## Version 1 -/

/-- The loop of `validate_info_undeduped` over the components of a path. -/
def parseComponents (platform : Platform) : List Value → Except MetaError (List Text)
  | [] => .ok []
  | c :: rest =>
    match c.asBytes.map componentText with
    | none => .error (.badUtf8 "file path")
    | some s =>
      if !isSafeComponent platform s then .error (.badInfo "file path component unsafe")
      else
        match parseComponents platform rest with
        | .error e => .error e
        | .ok components => .ok (s :: components)

/-- The body of the loop of `validate_info_undeduped` over the entries of the file list. -/
def parseFileEntry (platform : Platform) (entry : Value) : Except MetaError TorrentMetaInfo :=
  match entry.asDict with
  | none => .error (.badInfo "files entry not dict")
  | some _ =>
    match (entry.get "length").bind Value.asInt with
    | none => .error (.badInfo "file length missing")
    | some length =>
      if length.toInt < 0 then .error (.badInfo "file length negative")
      else
        let padding := isPaddingEntry entry
        match entryPathList entry, padding with
        | none, false => .error (.badInfo "file path missing")
        | pathList, _ =>
          match parseComponents platform (pathList.getD []) with
          | .error e => .error e
          | .ok components =>
            if components.isEmpty && !padding then .error (.badInfo "file path empty")
            else
              let path := if components.isEmpty then [".pad".toList, showNat length.toInt.toNat] else components
              .ok ⟨path, length.toInt.toNat, padding, !padding && isExecutableEntry entry⟩

/-- The loop of `validate_info_undeduped` over the file list. -/
def parseFileList (platform : Platform) : List Value → Except MetaError (List TorrentMetaInfo)
  | [] => .ok []
  | entry :: rest =>
    match parseFileEntry platform entry with
    | .error e => .error e
    | .ok file =>
      match parseFileList platform rest with
      | .error e => .error e
      | .ok files => .ok (file :: files)

/-- The files of `validate_info_undeduped`, and whether there is a single one. -/
def parseFiles (platform : Platform) (value : Value) (name : Text) : Except MetaError (List TorrentMetaInfo × Bool) :=
  match (value.get "files").bind Value.asList with
  | some list =>
    match parseFileList platform list with
    | .error e => .error e
    | .ok files => .ok (files, false)
  | none =>
    match (value.get "length").bind Value.asInt with
    | none => .error (.badInfo "single-file length missing")
    | some length =>
      if length.toInt ≤ 0 then .error .zeroLength
      else .ok ([⟨[name], length.toInt.toNat, false, isExecutableEntry value⟩], true)

/-- `validate_info_undeduped`. -/
def validateInfoUndeduped (platform : Platform) (value : Value) : Except MetaError ValidatedTorrentMetaV1Info :=
  match value.asDict with
  | none => .error (.badInfo "info not dict")
  | some _ =>
    match parsePieceLength value .badInfo with
    | .error e => .error e
    | .ok pieceLength =>
      match (value.get "pieces").bind Value.asBytes with
      | none => .error (.badInfo "pieces missing")
      | some piecesBytes =>
        if piecesBytes.isEmpty || piecesBytes.length % 20 ≠ 0 then .error .badPieces
        else
          match torrentName value with
          | none => .error (.badUtf8 "name")
          | some name =>
            if !isSafeComponent platform name then .error (.badInfo "torrent name unsafe")
            else
              match parseFiles platform value name with
              | .error e => .error e
              | .ok (files, singleFileMode) =>
                match checkedSum (files.map TorrentMetaInfo.length) with
                | none => .error (.badInfo "total file length overflow")
                | some totalLen =>
                  if totalLen = 0 then .error .zeroLength
                  else
                    match checkPieceCount totalLen pieceLength with
                    | .error e => .error e
                    | .ok () =>
                      if piecesBytes.length ≠ divCeil totalLen pieceLength.toNat * 20 then .error .badPieces
                      else .ok ⟨name, pieceLength, piecesBytes, infoPrivate value, files, singleFileMode⟩

end Metainfo

end Risuko
