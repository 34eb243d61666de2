import Risuko.Merkle.ProofTable
import Risuko.Metainfo.Tree

/-!
# Torrents

`parse_torrent` of `core/metainfo.rs`, the piece verifier that `core/merkle.rs` makes of what it returns, and the paths of
`FileSet::from_meta`. The loop that looks for free names has a bound on its turns, and where it runs out there is no result.
-/

namespace Risuko

/-- `get`, of any key. -/
def Bencode.Value.field (value : Bencode.Value) (key : List UInt8) : Option Bencode.Value :=
  value.asDict.bind fun items => (items.find? fun e => e.1.data = key).map Prod.snd

namespace Metainfo

open Bencode (Value ByteVec)

instance lawfulByte : LawfulBEq UInt8 := inferInstance

/-! ## The raw info dictionary -/

/-- `skip` in `top_level_field_span`: the bytes behind a value. The nesting and the entries of containers are bounded by the input,
and the fuel bounds the turns. -/
def skip : ℕ → List UInt8 → Option (List UInt8)
  | 0, _ => none
  | _, [] => none
  | fuel + 1, b :: rest =>
    if b = Bencode.ascii 'i' then
      if Bencode.ascii 'e' ∈ rest then some ((rest.dropWhile (· ≠ Bencode.ascii 'e')).drop 1) else none
    else if b = Bencode.ascii 'l' || b = Bencode.ascii 'd' then skipAll fuel rest
    else if isAsciiDigit b then
      let digits := (b :: rest).takeWhile (· ≠ Bencode.ascii ':')
      if Bencode.ascii ':' ∉ rest then none
      else
        let body := ((b :: rest).dropWhile (· ≠ Bencode.ascii ':')).drop 1
        match Bencode.Parser.parseU64 digits with
        | none => none
        | some len => if body.length < len then none else some (body.drop len)
    else none
where
  /-- The loop over the values of a container. -/
  skipAll : ℕ → List UInt8 → Option (List UInt8)
  | 0, _ => none
  | _, [] => none
  | fuel + 1, b :: rest =>
    if b = Bencode.ascii 'e' then some rest
    else
      match skip fuel (b :: rest) with
      | none => none
      | some rest => skipAll fuel rest

/-- The loop of `top_level_field_span` over the entries, at position `p` of the input. -/
def spanFrom (key : List UInt8) : ℕ → ℕ → List UInt8 → Option (ℕ × ℕ)
  | 0, _, _ => none
  | _, _, [] => none
  | fuel + 1, p, b :: rest =>
    if b = Bencode.ascii 'e' then none
    else
      match skip (2 * rest.length + 4) (b :: rest) with
      | none => none
      | some value =>
        let keyText := (b :: rest).take (rest.length + 1 - value.length)
        let keyEnd := p + keyText.length
        if Bencode.ascii ':' ∉ keyText then none
        else
          match skip (2 * value.length + 4) value with
          | none => none
          | some behind =>
            let valEnd := keyEnd + (value.length - behind.length)
            if (keyText.dropWhile (· ≠ Bencode.ascii ':')).drop 1 = key then some (keyEnd, valEnd) else spanFrom key fuel valEnd behind

/-- `top_level_field_span`. -/
def topLevelFieldSpan (input key : List UInt8) : Option (ℕ × ℕ) :=
  match input with
  | [] => none
  | b :: rest => if b ≠ Bencode.ascii 'd' then none else spanFrom key (rest.length + 1) 1 rest

/-- The bytes of a range of the input. -/
def slice (input : List UInt8) (span : ℕ × ℕ) : List UInt8 := (input.drop span.1).take (span.2 - span.1)

/-! ## Piece layers -/

/-- The loop of `parse_piece_layers` over the entries. -/
def parseLayerEntries : List (ByteVec × Value) → PieceLayers → Except MetaError PieceLayers
  | [], layers => .ok layers
  | (k, v) :: rest, layers =>
    if k.data.length ≠ 32 then .error (.badInfoV2 "piece layers key not 32 bytes")
    else
      match v.asBytes with
      | none => .error (.badInfoV2 "piece layers value not bytes")
      | some bytes =>
        if bytes.length % 32 ≠ 0 then .error (.badInfoV2 "piece layers value length not multiple of 32")
        else parseLayerEntries rest (Function.update layers (Id32.ofSlice k.data) (some bytes))

/-- `parse_piece_layers`. -/
def parsePieceLayers (top : Value) : Except MetaError PieceLayers :=
  match top.get "piece layers" with
  | none => .ok fun _ => none
  | some value =>
    match value.asDict with
    | none => .error (.badInfoV2 "piece layers not dict")
    | some dict => parseLayerEntries dict fun _ => none

/-! ## The parser -/

/-- The version that the fields of the info dictionary tell. -/
def metaVersionOf (infoValue : Value) : Option MetaVersion :=
  let hasV1 := (infoValue.get "pieces").isSome
  let hasV2 := (infoValue.get "meta version").bind Value.asInt = some 2 && (infoValue.get "file tree").isSome
  if hasV1 then if hasV2 then some .hybrid else some .v1
  else if hasV2 then some .v2 else none

/-- The branch of `parse_torrent` for a torrent without a v1 part. -/
def parseV2Torrent (platform : Platform) (fuel : ℕ) (value infoValue : Value) (infoRaw : List UInt8) :
    Option (Except MetaError TorrentMeta) :=
  match validateInfoV2 platform infoValue with
  | .error e => some (.error e)
  | .ok v2 =>
    match parsePieceLayers value with
    | .error e => some (.error e)
    | .ok pieceLayers =>
      (synthesizeV1FacadeFromV2 platform fuel v2).map fun info =>
        if v2.files.any (fun file => v2.pieceLength.toNat < file.length && (pieceLayers file.piecesRoot).isNone) then
          .error .missingPieceLayers
        else .ok ⟨info, some v2, .v2, pieceLayers, infoRaw⟩

/-- The v2 part of a hybrid torrent. -/
def parseHybridInfo (platform : Platform) (info : ValidatedTorrentMetaV1Info) (infoValue : Value) :
    Except MetaError ValidatedTorrentMetaV2Info :=
  match validateInfoV2 platform infoValue with
  | .error e => .error e
  | .ok v2 =>
    match checkHybridLayout info infoValue v2 with
    | .error e => .error e
    | .ok () => .ok v2

/-- The end of `parse_torrent` for a torrent with a v1 part: the files get names of their own, and a hybrid torrent its layers. -/
def finishV1 (platform : Platform) (fuel : ℕ) (value : Value) (infoRaw : List UInt8) (info : ValidatedTorrentMetaV1Info)
    (infoV2 : Option ValidatedTorrentMetaV2Info) : Option (Except MetaError TorrentMeta) :=
  (dedupeFileList platform fuel info.files).map fun files =>
    let isPrivate := info.isPrivate || infoV2.any (·.isPrivate)
    let info := { info with files := files, isPrivate := isPrivate }
    match infoV2 with
    | none => .ok ⟨info, none, .v1, fun _ => none, infoRaw⟩
    | some v2 =>
      match parsePieceLayers value with
      | .error e => .error e
      | .ok pieceLayers => .ok ⟨info, some v2, .hybrid, pieceLayers, infoRaw⟩

/-- The branch of `parse_torrent` for a torrent with a v1 part. -/
def parseV1Torrent (platform : Platform) (fuel : ℕ) (value infoValue : Value) (infoRaw : List UInt8) (hasV2 : Bool) :
    Option (Except MetaError TorrentMeta) :=
  match validateInfoUndeduped platform infoValue with
  | .error e => some (.error e)
  | .ok info =>
    if hasV2 then
      match parseHybridInfo platform info infoValue with
      | .error e => some (.error e)
      | .ok v2 => finishV1 platform fuel value infoRaw info (some v2)
    else finishV1 platform fuel value infoRaw info none

/-- `parse_torrent`. -/
def parseTorrent (platform : Platform) (fuel : ℕ) (bytes : List UInt8) : Option (Except MetaError TorrentMeta) :=
  match Bencode.decodeAll bytes with
  | .error e => some (.error (.bencode e))
  | .ok value =>
    if value.asDict.isNone then some (.error (.badInfo "top-level not dict"))
    else
      match (topLevelFieldSpan bytes ("info".toList.map Bencode.ascii)).map (slice bytes), value.get "info" with
      | some infoRaw, some infoValue =>
        if infoValue.asDict.isNone then some (.error (.badInfo "info not dict"))
        else
          match checkMetaVersion infoValue with
          | .error e => some (.error e)
          | .ok () =>
            match metaVersionOf infoValue with
            | none => some (.error (.badInfo "info dict has neither v1 nor v2"))
            | some .v2 => parseV2Torrent platform fuel value infoValue infoRaw
            | some version => parseV1Torrent platform fuel value infoValue infoRaw (version = .hybrid)
      | _, _ => some (.error .missingInfo)

/-! ## Paths -/

/-- `PathBuf::push`, of a path as the list of what was joined: a component that starts at a root, or on Windows names a drive, takes
the place of the path. -/
def pushComponent (platform : Platform) (path : List Text) (c : Text) : List Text :=
  if c.head? = some '/' || (platform.windows && (c.head? = some '\\' || hasDrivePrefix c)) then [c] else path ++ [c]

/-- The path that `FileSet::from_meta` gives a file. -/
def diskPath (platform : Platform) (root : List Text) (f : TorrentMetaInfo) : List Text :=
  f.path.foldl (fun path c => pushComponent platform path (fsComponent platform c)) root

/-- A file, as the layout of the storage takes it. -/
def TorrentMetaInfo.toStorage (f : TorrentMetaInfo) : Risuko.TorrentMetaInfo := ⟨f.path.isEmpty, f.length, f.padding⟩

/-- `FileSet::from_meta`, but for the paths. -/
def ValidatedTorrentMetaV1Info.fileSet (info : ValidatedTorrentMetaV1Info) : FileSet :=
  FileSet.fromMeta (info.files.map TorrentMetaInfo.toStorage)

/-- The paths of `FileSet::from_meta`. -/
def ValidatedTorrentMetaV1Info.filePaths (info : ValidatedTorrentMetaV1Info) (platform : Platform) (root : List Text) :
    List (List Text) :=
  info.files.map (diskPath platform root)

end Metainfo

end Risuko
