import Mathlib.Algebra.Ring.Nat

/-!
# The segments of a media playlist

`parse_playlist_bytes` of `m3u8/parser.rs` on what `m3u8_rs` returns for a media playlist, and the `Range` header of a segment. How a URL is resolved
against the one of the playlist is a parameter.
-/

namespace Risuko

namespace M3u8

structure ByteRange where
  length : ℕ
  offset : ℕ

structure EncryptionInfo where
  method : String
  keyUri : String
  iv : Option (List UInt8)

structure Segment where
  url : String
  byteRange : Option ByteRange
  encryption : Option EncryptionInfo

/-! ## What `m3u8_rs` returns -/

/-- `m3u8_rs::KeyMethod`. -/
inductive KeyMethod where
  | none
  | aes128
  | sampleAes
  | other (method : String)
  deriving DecidableEq

/-- `m3u8_rs::Key`. -/
structure Key where
  method : KeyMethod
  uri : Option String
  iv : Option String
  keyformat : Option String

/-- `m3u8_rs::ByteRange`. -/
structure RangeTag where
  length : UInt64
  offset : Option UInt64

/-- `m3u8_rs::MediaSegment`. -/
structure MediaSegment where
  uri : String
  byteRange : Option RangeTag
  key : Option Key
  /-- Whether it has an `EXT-X-MAP`. -/
  map : Bool

/-- `m3u8_rs::MediaPlaylist`. -/
structure MediaPlaylist where
  mediaSequence : UInt64
  segments : List MediaSegment
  endList : Bool

/-! ## Keys -/

/-- `str::eq_ignore_ascii_case`. -/
def eqIgnoreAsciiCase (s t : String) : Bool := s.toList.map Char.toLower == t.toList.map Char.toLower

/-- What `check_supported_keys` says of one key. -/
def unsupportedKey (key : Key) : Option String :=
  let format := key.keyformat.getD "identity"
  match key.method with
  | .none => none
  | .aes128 =>
    if !eqIgnoreAsciiCase format "identity" then some ("Unsupported HLS encryption AES-128 with KEYFORMAT " ++ format)
    else if key.uri.isNone then some "Unsupported HLS encryption: AES-128 key has no URI"
    else none
  | .sampleAes => some ("Unsupported HLS encryption SAMPLE-AES with KEYFORMAT " ++ format)
  | .other method => some ("Unsupported HLS encryption " ++ method)

def checkSupportedKeys (segments : List MediaSegment) : Except String Unit :=
  match (segments.filterMap (·.key)).findSome? unsupportedKey with
  | some e => .error e
  | none => .ok ()

def hexValue (c : Char) : Option ℕ :=
  if '0' ≤ c ∧ c ≤ '9' then some (c.toNat - '0'.toNat)
  else if 'a' ≤ c ∧ c ≤ 'f' then some (c.toNat - 'a'.toNat + 10)
  else if 'A' ≤ c ∧ c ≤ 'F' then some (c.toNat - 'A'.toNat + 10)
  else none

/-- `hex::decode`. -/
def hexDecode : List Char → Option (List UInt8)
  | [] => some []
  | [_] => none
  | high :: low :: rest => do
    let h ← hexValue high
    let l ← hexValue low
    let bytes ← hexDecode rest
    return UInt8.ofNat (16 * h + l) :: bytes

def parseHexIv (ivStr : String) : Option (List UInt8) :=
  let hex :=
    match ivStr.toList with
    | '0' :: 'x' :: hex => hex
    | '0' :: 'X' :: hex => hex
    | hex => hex
  if hex.length = 32 then hexDecode hex else none

variable (resolve : String → Option String)

/-- `resolve_segment_url`, or the text as it is. -/
def resolveOr (uri : String) : String := (resolve uri).getD uri

def parseKeyTag (key : Key) : Option EncryptionInfo :=
  let info (method : String) : Option EncryptionInfo :=
    key.uri.map fun keyUri => ⟨method, resolveOr resolve keyUri, key.iv.bind parseHexIv⟩
  match key.method with
  | .none => none
  | .aes128 => info "AES-128"
  | .sampleAes => info "SAMPLE-AES"
  | .other _ => none

/-! ## Segments -/

/-- `current_encryption`, `byte_range_offset` and `byte_range_url`. -/
structure Carried where
  encryption : Option EncryptionInfo
  offset : ℕ
  url : String

/-- One turn of the `map` over the segments. `add` is the addition of offset and length. -/
def nextSegment (add : ℕ → ℕ → ℕ) (c : Carried) (seg : MediaSegment) : Carried × Segment :=
  let encryption := (seg.key.map (parseKeyTag resolve)).getD c.encryption
  let url := resolveOr resolve seg.uri
  let start := if c.url ≠ url then 0 else c.offset
  let byteRange := seg.byteRange.map fun br => (⟨br.length.toNat, (br.offset.map UInt64.toNat).getD start⟩ : ByteRange)
  let offset := byteRange.elim start fun br => add br.offset br.length
  (⟨encryption, offset, url⟩, ⟨url, byteRange, encryption⟩)

def mapSegments (add : ℕ → ℕ → ℕ) (c : Carried) : List MediaSegment → List Segment
  | [] => []
  | seg :: rest => (nextSegment resolve add c seg).2 :: mapSegments add (nextSegment resolve add c seg).1 rest

/-- Addition of `u64`, which wraps. -/
def wrappingAdd (a b : ℕ) : ℕ := (a + b) % 2 ^ 64

structure ParsedMedia where
  segments : List Segment
  mediaSequence : UInt64
  endList : Bool

/-- `parse_playlist_bytes`, of a media playlist. -/
def parseMedia (media : MediaPlaylist) : Except String ParsedMedia :=
  if media.segments.any (·.map) then .error "fMP4/CMAF HLS playlists (EXT-X-MAP) are not supported"
  else
    match checkSupportedKeys media.segments with
    | .error e => .error e
    | .ok () => .ok ⟨mapSegments resolve wrappingAdd ⟨none, 0, ""⟩ media.segments, media.mediaSequence, media.endList⟩

/-! ## Requests -/

/-- `u64::saturating_add`. -/
def saturatingAdd (a b : ℕ) : ℕ := min (a + b) (2 ^ 64 - 1)

/-- The first and the last byte that the `Range` header of `attempt_segment_download` names. -/
def Segment.rangeHeader (seg : Segment) : Option (ℕ × ℕ) :=
  seg.byteRange.bind fun br => if 0 < br.length then some (br.offset, saturatingAdd br.offset br.length - 1) else none

/-! ## What a playlist says -/

/-- The key tag that is in force: the last one at or before the segment. -/
def keyInForce (segments : List MediaSegment) (i : ℕ) : Option Key := ((segments.take (i + 1)).filterMap (·.key)).getLast?

/-- Where the next range begins, looking back over segments with this URL to the last one that has a range. -/
def lookBack (add : ℕ → ℕ → ℕ) (url : String) : List Segment → ℕ
  | [] => 0
  | seg :: before =>
    if seg.url = url then
      match seg.byteRange with
      | some br => add br.offset br.length
      | none => lookBack add url before
    else 0

/-- The segments with every range where the playlist says, in exact numbers. -/
def exactSegments (media : MediaPlaylist) : List Segment := mapSegments resolve (· + ·) ⟨none, 0, ""⟩ media.segments

end M3u8

end Risuko
