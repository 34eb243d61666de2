import Risuko.Lib.Reach
import Risuko.Lemmas.FieldSpan
import Risuko.Lemmas.Layout
import Risuko.Lemmas.Renaming

/-!
# Torrents

What the parser of torrents lets through, what it reads, where the files lie and what their hashes are.
-/

namespace Risuko

/-!
## Torrents: paths and layouts

The paths of every torrent that the parser accepts stay under the root. Where it has a file tree, the pieces of the torrent are the pieces
of the files, in the geometry, in the file set and for the piece verifier alike.
-/

namespace Metainfo

/-- Each file of the file set lies at the root joined with the components of its path on disk, of which there is one at least. The
components are safe, before they are sanitised and after it, and none begins with a drive where drives exist. -/
theorem paths_under_root (platform : Platform) (fuel : ℕ) (bytes : List UInt8) (torrent : TorrentMeta)
    (h : parseTorrent platform fuel bytes = some (.ok torrent)) (root : List Text) :
    (torrent.info.filePaths platform root).length = torrent.info.fileSet.files.length ∧
      (∀ f ∈ torrent.info.files, SafePath platform f.path) ∧
      ∀ path ∈ torrent.info.filePaths platform root, ∃ components, path = root ++ components ∧ SafePath platform components := by
  have hsafe := (accepted_of_parseTorrent h).safe
  refine ⟨?_, hsafe, fun path hp => ?_⟩
  · unfold ValidatedTorrentMetaV1Info.filePaths ValidatedTorrentMetaV1Info.fileSet FileSet.fromMeta
    rw [List.length_map, FileSet.length_layOut, List.length_map]
  · obtain ⟨f, hf, rfl⟩ := List.mem_map.mp hp
    obtain ⟨hne, hall⟩ := hsafe f hf
    refine ⟨_, diskPath_eq hall root, fun e => hne (List.map_eq_nil_iff.mp e), fun c hc => ?_⟩
    obtain ⟨c', hc', rfl⟩ := List.mem_map.mp hc
    exact safe_fsComponent (hall c' hc')

/-- A literal is known by its characters, without decoding its bytes. -/
theorem toList_of_eq_ofList {s : String} {cs : List Char} (h : s = String.ofList cs) : s.toList = cs := by
  rw [h, String.toList_ofList]

/-- A torrent of one file named `C:`, a letter and a colon. -/
def driveTorrent : List UInt8 :=
  "d4:infod6:lengthi1e4:name2:C:12:piece lengthi16384e6:pieces20:aaaaaaaaaaaaaaaaaaaaee".toList.map Bencode.ascii

theorem parseTorrent_drive : ∃ torrent, parseTorrent ⟨false, false, id⟩ 0 driveTorrent = some (.ok torrent) ∧
    torrent.info.filePaths ⟨false, false, id⟩ [] = [["C:".toList]] := by
  have hparse : ((parseTorrent ⟨false, false, id⟩ 0 driveTorrent).bind Except.toOption).map
      (fun t => t.info.filePaths ⟨false, false, id⟩ []) = some [["C:".toList]] := by
    delta driveTorrent
    rewrite [toList_of_eq_ofList rfl]
    decide +kernel
  obtain ⟨torrent, htorrent, hpaths⟩ := Option.map_eq_some_iff.mp hparse
  obtain ⟨r, hr, hok⟩ := Option.bind_eq_some_iff.mp htorrent
  match r, hok with
  | .ok t, hok =>
    cases hok
    exact ⟨torrent, hr, hpaths⟩

/-- A drive letter is an ordinary name on a platform without drives. -/
theorem paths_under_root_drive : ∃ torrent, parseTorrent ⟨false, false, id⟩ 0 driveTorrent = some (.ok torrent) ∧
    torrent.info.filePaths ⟨false, false, id⟩ [] = [["C:".toList]] ∧
    ∀ path ∈ torrent.info.filePaths ⟨false, false, id⟩ [], ∃ components, path = [] ++ components ∧
      SafePath ⟨false, false, id⟩ components := by
  obtain ⟨torrent, h, hpaths⟩ := parseTorrent_drive
  exact ⟨torrent, h, hpaths, (paths_under_root _ _ _ _ h []).2.2⟩

/-- Where `cfg!(windows)` does not hold the parser accepts a name that begins with a letter and a colon. -/
theorem paths_under_root_noDrive : ¬ ∀ (platform : Platform) (fuel : ℕ) (bytes : List UInt8) (torrent : TorrentMeta),
    parseTorrent platform fuel bytes = some (.ok torrent) → ∀ root, ∀ path ∈ torrent.info.filePaths platform root,
      ∃ components, path = root ++ components ∧ components ≠ [] ∧ ∀ c ∈ components, hasDrivePrefix c = false := by
  intro h
  obtain ⟨torrent, htorrent, hpaths⟩ := parseTorrent_drive
  obtain ⟨components, heq, -, hall⟩ := h _ _ _ _ htorrent [] ["C:".toList] (by rw [hpaths]; exact List.mem_singleton_self _)
  have hdrive := hall "C:".toList (by rw [List.nil_append] at heq; rw [← heq]; exact List.mem_singleton_self _)
  exact absurd hdrive (by decide)

/-- The pieces of an accepted v2 or hybrid torrent: there are as many as its files have, every file with data starts at a piece, each
piece is one piece of one file, the file set gives for it bytes of that file and then at most padding, and the verifier checks it as
that piece of that file. A verifier that looks at no file has no table to look at. -/
theorem layouts_agree (sha256 : List UInt8 → Id32) (platform : Platform) (fuel : ℕ) (bytes : List UInt8) (torrent : TorrentMeta)
    (v2 : ValidatedTorrentMetaV2Info) (h : parseTorrent platform fuel bytes = some (.ok torrent)) (hv2 : torrent.infoV2 = some v2) :
    ∃ l : Lengths, Lengths.new (UInt64.ofNat torrent.info.fileSet.totalLength) torrent.info.pieceLength = .ok l ∧
      l.totalLength = torrent.info.fileSet.totalLength ∧ l.pieceLength = v2.pieceLength.toNat ∧
      l.totalPieces = (v2.files.map fun file => divCeil file.length l.pieceLength).sum ∧
      (PieceVerifier.fileStartsFrom torrent.info.files 0).length = v2.files.length ∧
      (∀ start ∈ PieceVerifier.fileStartsFrom torrent.info.files 0, l.pieceLength ∣ start) ∧
      (∀ i : ValidPieceIndex l, ∃! piece : ℕ × ℕ, ∃ start file, PieceOf torrent v2 start file i piece.1 piece.2) ∧
      ∀ (i : ValidPieceIndex l) (k j start : ℕ) (file : TorrentMetaInfoV2), PieceOf torrent v2 start file i k j →
        (∃ idx pads, torrent.info.fileSet.files[idx]? = some ⟨file.length, start, false⟩ ∧
          torrent.info.fileSet.spansFor (l.pieceOffset i) (l.pieceLengthOf i) =
            ⟨idx, j * l.pieceLength, min l.pieceLength (file.length - j * l.pieceLength)⟩ :: pads ∧
          ∀ span ∈ pads, torrent.info.fileSet.isPadding span.fileIndex = true) ∧
        ∀ verifier, PieceVerifier.fromMeta sha256 torrent = .ok verifier →
          Assigns file i k j verifier ∧ ∀ pieces, verifier = .v1Sha1 pieces →
            ∀ file ∈ v2.files, (PieceVerifier.buildV2Table sha256 torrent v2.pieceLength file).toOption = none := by
  have haccepted := accepted_of_parseTorrent h
  have hlaid := haccepted.laid hv2
  obtain ⟨l, hl, htotal, hpiece, hpieces⟩ := hlaid.lengths_new
  refine ⟨l, hl, htotal, hpiece, by rw [hpieces, hpiece], ?_, fun start hs => ?_, fun i => ?_, fun i k j start file hof => ⟨?_, ?_⟩⟩
  · rw [hlaid.fileStarts, List.length_map, Runs.length_starts, List.length_map]
  · rw [hlaid.fileStarts] at hs
    obtain ⟨n, -, rfl⟩ := List.mem_map.mp hs
    rw [hpiece]
    exact Nat.dvd_mul_left _ _
  · have hi : i.val < v2.pieceCounts.sum := hpieces ▸ i.isLt
    obtain ⟨k, j, hat⟩ := Runs.exists_at hi
    refine ⟨(k, j), hlaid.pieceOf_iff.mpr hat, fun piece hof => ?_⟩
    obtain ⟨hk, hj⟩ := (hlaid.pieceOf_iff.mp hof).unique hat
    exact Prod.ext hk hj
  · exact hlaid.spans (fun f hf => (haccepted.safe f hf).1) htotal hpiece hof
  · intro verifier hverifier
    obtain ⟨hassigns, hnone⟩ := hlaid.fromMeta hv2 hverifier
    exact ⟨hassigns hof, hnone⟩

/-- A v2 torrent of two files, of one byte and of two. -/
def treeTorrent : List UInt8 :=
  ("d4:infod9:file treed1:ad0:d6:lengthi1e11:pieces root32:aaaaaaaaaaaaaaaaaaaaaaaaaaaaaaaaee" ++
    "1:bd0:d6:lengthi2e11:pieces root32:bbbbbbbbbbbbbbbbbbbbbbbbbbbbbbbbeee" ++
    "12:meta versioni2e4:name1:n12:piece lengthi16384eee").toList.map Bencode.ascii

/-- A torrent with a file tree of two files. -/
theorem layouts_agree_tree : ∃ torrent v2, ∃ l : Lengths, parseTorrent ⟨false, false, id⟩ 0 treeTorrent = some (.ok torrent) ∧
    torrent.infoV2 = some v2 ∧ v2.files.map TorrentMetaInfoV2.length = [1, 2] ∧ l.totalLength = 16386 ∧ l.totalPieces = 2 := by
  have hparse : ((parseTorrent ⟨false, false, id⟩ 0 treeTorrent).bind Except.toOption).bind
      (fun t => t.infoV2.map fun v2 => (v2.files.map TorrentMetaInfoV2.length, v2.pieceLength, t.info.fileSet.totalLength)) =
      some ([1, 2], 16384, 16386) := by
    delta treeTorrent
    rewrite [String.toList_append, String.toList_append, toList_of_eq_ofList rfl, toList_of_eq_ofList rfl, toList_of_eq_ofList rfl]
    decide +kernel
  obtain ⟨torrent, htorrent, hmap⟩ := Option.bind_eq_some_iff.mp hparse
  obtain ⟨v2, hv2, heq⟩ := Option.map_eq_some_iff.mp hmap
  obtain ⟨r, hr, hok⟩ := Option.bind_eq_some_iff.mp htorrent
  simp only [Prod.mk.injEq] at heq
  obtain ⟨hlengths, hpieceLength, htotalLength⟩ := heq
  match r, hok with
  | .ok t, hok =>
    cases hok
    obtain ⟨l, -, htotal, hpiece, hpieces, -⟩ := layouts_agree (fun _ => Id32.zero) _ _ _ _ _ hr hv2
    refine ⟨torrent, v2, l, hr, hv2, hlengths, htotal.trans htotalLength, ?_⟩
    have hcounts : (v2.files.map TorrentMetaInfoV2.length).map (fun n => divCeil n l.pieceLength) = [1, 1] := by
      rw [hlengths, hpiece, hpieceLength]
      decide
    rw [List.map_map] at hcounts
    exact hpieces.trans (congrArg List.sum hcounts)

end Metainfo

/-!
## The info hash covers what is parsed

Over every input that the decoder accepts the scanner finds the bytes of the value that a lookup returns, so the raw info of a torrent is
the text of the info dictionary that its fields are read from.
-/

namespace Metainfo

open Bencode (Value ByteVec)

/-- The span is of the field that the decoder reads, and there is none when it reads none. -/
theorem entrySpan_of_decodeAll {x : List UInt8} {value : Value} (h : Bencode.decodeAll x = .ok value) (key : List UInt8) :
    (topLevelFieldSpan x key).isSome = (value.field key).isSome
      ∧ ∀ span, topLevelFieldSpan x key = some span → span.1 ≤ span.2 ∧ span.2 ≤ x.length
        ∧ ∃ w, value.field key = some w ∧ Bencode.decodeAll (slice x span) = .ok w := by
  obtain ⟨hx, hunique, hnesting⟩ := Bencode.decodeAll_ok.mp h
  cases value with
  | int n | list items =>
    rw [hx]
    exact ⟨rfl, by rintro _ ⟨⟩⟩
  | bytes b =>
    obtain ⟨d, digits, hd⟩ := List.exists_cons_of_ne_nil (decimal_ne_nil b.data.length)
    have hdict : d ≠ Bencode.ascii 'd' := by
      rintro rfl
      exact Bencode.Parser.head?_decimal_ne (show isAsciiDigit (Bencode.ascii 'd') = false by decide) b.data.length
        (by rw [hd, List.head?_cons])
    have hnone : topLevelFieldSpan x key = none := by
      rw [hx, Value.render, Bencode.renderBytes, hd, List.cons_append, topLevelFieldSpan, if_pos hdict]
    rw [hnone]
    exact ⟨rfl, by rintro _ ⟨⟩⟩
  | dict items =>
    have hspan : topLevelFieldSpan x key = entrySpan key 1 items := by
      have hlen := Bencode.Parser.length_le_renderEntries items
      rw [hx, Value.render, topLevelFieldSpan, if_neg (by simp), spanFrom_renderEntries]
      rw [List.length_append]
      omega
    have hbody : x.drop 1 = Value.renderEntries items ++ [Bencode.ascii 'e'] := by rw [hx, Value.render, List.drop_succ_cons, List.drop_zero]
    obtain ⟨hsome, hfound⟩ := entrySpan_spec key x [Bencode.ascii 'e'] items 1 hbody
    rw [hspan]
    refine ⟨by rw [hsome, Value.field, Value.asDict, Option.bind_some, Option.isSome_map], fun span hs => ?_⟩
    obtain ⟨hle, hend, k, w, hfind, hslice⟩ := hfound span hs
    have hmem : (k, w) ∈ items := List.mem_of_find?_eq_some hfind
    refine ⟨hle, hend, w, by rw [Value.field, Value.asDict, Option.bind_some, hfind, Option.map_some], ?_⟩
    exact Bencode.decodeAll_ok.mpr ⟨hslice, Value.uniqueKeysEntries_iff.mp hunique.2 _ hmem,
      ((Value.nestingEntries_lt.mp (Nat.lt_succ_of_le hnesting)) _ hmem).le⟩

/-- Over every input that is decoded, the span of a key is there exactly when a lookup finds the key, and its bytes alone are decoded to
the value that the lookup finds. The raw info of a torrent, which is what is hashed, is the text of the info dictionary. -/
theorem field_span_exact (x : List UInt8) (value : Value) (h : Bencode.decodeAll x = .ok value) :
    (∀ key, topLevelFieldSpan x key = none ↔ value.field key = none)
      ∧ (∀ key span, topLevelFieldSpan x key = some span → span.1 ≤ span.2 ∧ span.2 ≤ x.length
        ∧ ∃ w, value.field key = some w ∧ Bencode.decodeAll (slice x span) = .ok w)
      ∧ ∀ platform fuel torrent, parseTorrent platform fuel x = some (.ok torrent) →
        ∃ span w, topLevelFieldSpan x ("info".toList.map Bencode.ascii) = some span ∧ torrent.infoBytes = slice x span
          ∧ value.get "info" = some w ∧ Bencode.decodeAll torrent.infoBytes = .ok w := by
  refine ⟨fun key => ?_, fun key => (entrySpan_of_decodeAll h key).2, fun platform fuel torrent hparse => ?_⟩
  · rw [← Option.isNone_iff_eq_none, ← Option.isNone_iff_eq_none, ← Option.not_isSome, ← Option.not_isSome,
      (entrySpan_of_decodeAll h key).1]
  · obtain ⟨hraw, -⟩ := infoBytes_of_parseTorrent hparse h
    obtain ⟨span, hspan, hbytes⟩ := Option.map_eq_some_iff.mp hraw
    obtain ⟨-, -, w, hfield, hdecode⟩ := (entrySpan_of_decodeAll h _).2 span hspan
    exact ⟨span, w, hspan, hbytes.symm, hfield, by rw [← hbytes]; exact hdecode⟩

/-- A dictionary whose first value is a text that reads like the entry behind it. -/
def quoted : Value :=
  .dict [(⟨[Bencode.ascii 'b'], by decide⟩, .bytes ⟨"1:ai0e".toList.map Bencode.ascii, by decide⟩),
    (⟨[Bencode.ascii 'a'], by decide⟩, .int 7)]

/-- A key within a string is not taken for a field. -/
theorem field_span_exact_quoted :
    topLevelFieldSpan quoted.render [Bencode.ascii 'a'] = some (15, 18)
      ∧ (topLevelFieldSpan quoted.render [Bencode.ascii 'c'] = none ↔ quoted.field [Bencode.ascii 'c'] = none) :=
  ⟨by decide +kernel, (field_span_exact quoted.render quoted
    (Bencode.decodeAll_ok.mpr ⟨rfl, ⟨by decide, trivial, trivial, trivial⟩, by decide⟩)).1 _⟩

end Metainfo

/-!
## Paths do not meet on disk

`dedupe_paths` on any list of paths.
-/

namespace Metainfo

/-- Whether `dedupe_paths` leaves an entry out: it is told to, or the path is empty. -/
def isSkipped (skip : List Bool) (i : ℕ) (path : List Text) : Bool := skip.getD i false || path.isEmpty

/-- The paths on disk are disjoint: what is skipped is kept; the others have keys that differ in pairs, each of them lies in the directory
it was in, and the first that had a key is kept. -/
structure DisjointPaths (platform : Platform) (paths : List (List Text)) (skip : List Bool) (out : List (List Text)) : Prop where
  length_eq : out.length = paths.length
  skipped : ∀ (i : ℕ) (path : List Text), paths[i]? = some path → isSkipped skip i path = true → out[i]? = some path
  distinct : ∀ (i j : ℕ) (p q p' q' : List Text), i < j → paths[i]? = some p → isSkipped skip i p = false →
    paths[j]? = some q → isSkipped skip j q = false → out[i]? = some p' → out[j]? = some q' →
    diskPathKey platform p' ≠ diskPathKey platform q'
  dir : ∀ (i : ℕ) (path path' : List Text), paths[i]? = some path → isSkipped skip i path = false → out[i]? = some path' →
    path'.length = path.length ∧ path'.dropLast = path.dropLast
  first : ∀ (i : ℕ) (path : List Text), paths[i]? = some path → isSkipped skip i path = false →
    (∀ j < i, ∀ p : List Text, paths[j]? = some p → isSkipped skip j p = false →
      diskPathKey platform p ≠ diskPathKey platform path) → out[i]? = some path

/-- The paths, each with whether it is skipped. -/
theorem getElem?_marked (paths : List (List Text)) (skip : List Bool) (i : ℕ) :
    (paths.zipIdx.map fun e => (e.1, skip.getD e.2 false || e.1.isEmpty))[i]? =
      paths[i]?.map fun path => (path, isSkipped skip i path) := by
  rw [List.getElem?_map, List.getElem?_zipIdx, Option.map_map]
  simp only [Function.comp_def, Nat.zero_add]
  rfl

/-- `dedupe_paths` ends on every list of paths. Those that are not skipped then have keys that differ in pairs, each lies in the directory it was in, and
the first that had a key is kept. -/
theorem dedupe_paths_disjoint (windows macos : Bool) (tables : CaseTables) (paths : List (List Text)) (skip : List Bool) :
    ∃ out, (∀ fuel, 2 * paths.length < fuel → dedupePaths (unicodePlatform windows macos tables) fuel paths skip = some out) ∧
      DisjointPaths (unicodePlatform windows macos tables) paths skip out := by
  generalize hmarked : (paths.zipIdx.map fun e => (e.1, skip.getD e.2 false || e.1.isEmpty)) = marked
  have hlength : marked.length = paths.length := by
    rw [← hmarked, List.length_map, List.length_zipIdx]
  have hmark : ∀ {i path b}, paths[i]? = some path → isSkipped skip i path = b → marked[i]? = some (path, b) := by
    intro i path b hpath hskip
    rw [← hmarked, getElem?_marked, hpath, ← hskip]
    rfl
  have hpath : ∀ {i path b}, marked[i]? = some (path, b) → paths[i]? = some path ∧ isSkipped skip i path = b := by
    intro i path b h
    rw [← hmarked, getElem?_marked] at h
    obtain ⟨p, hp, heq⟩ := Option.map_eq_some_iff.mp h
    cases heq
    exact ⟨hp, rfl⟩
  generalize htaken : ((marked.filter fun e => !e.2).map fun e => diskPathKey (unicodePlatform windows macos tables) e.1).toFinset = taken
  have hcard : taken.card ≤ paths.length := by
    rw [← htaken, ← hlength]
    exact (List.toFinset_card_le _).trans ((List.length_map _).trans_le (List.length_filter_le _ _))
  have hcome : ∀ path, (path, false) ∈ marked → path ≠ [] ∧ diskPathKey (unicodePlatform windows macos tables) path ∈ taken := by
    intro path hmem
    constructor
    · rintro rfl
      obtain ⟨i, hi⟩ := List.mem_iff_getElem?.mp hmem
      have hskip := (hpath hi).2
      rw [isSkipped, List.isEmpty_nil, Bool.or_true] at hskip
      cases hskip
    · rw [← htaken, List.mem_toFinset]
      exact List.mem_map.mpr ⟨(path, false), List.mem_filter.mpr ⟨hmem, rfl⟩, rfl⟩
  obtain ⟨out, hrun, hout⟩ := dedupeFrom_some marked taken ∅ (fun _ => 1) (Finset.empty_subset _) hcome
  refine ⟨out, fun fuel hfuel => ?_, ?_⟩
  · unfold dedupePaths
    dsimp only
    rw [hmarked, htaken]
    exact hrun fuel (by omega)
  · exact {
      length_eq := hout.length_eq.trans hlength
      skipped := fun i path hp hskip => hout.skipped i path (hmark hp hskip)
      distinct := fun i j p q p' q' hij hp hps hq hqs => hout.distinct i j p q p' q' hij (hmark hp hps) (hmark hq hqs)
      dir := fun i path path' hp hskip => hout.dir i path path' (hmark hp hskip)
      first := fun i path hp hskip hfirst => hout.first i path (hmark hp hskip) (Finset.notMem_empty _)
        fun j hj p hmarked => hfirst j hj p (hpath hmarked).1 (hpath hmarked).2 }

end Metainfo

/-!
## The root in two levels

The root over the roots of the pieces is the root over all blocks: the padding inside the last piece and the padding of the layer of
pieces are nodes of one tree over zero hashes.
-/

section

/-- The roots of the pieces of a list of block hashes, each padded to a whole piece. -/
def pieceRoots (sha256 : List UInt8 → Id32) (blocks : List Id32) (blocksPerPiece : ℕ) : List Id32 :=
  (List.range (divCeil blocks.length blocksPerPiece)).map fun i =>
    computeRootPadded sha256 ((blocks.drop (blocksPerPiece * i)).take blocksPerPiece) blocksPerPiece

/-- With more than one piece, the tree over the blocks is as high as the tree of a piece and the tree over the pieces together. -/
theorem clog_divCeil {n k : ℕ} (h : 2 ^ k < n) : Nat.clog 2 n = Nat.clog 2 (divCeil n (2 ^ k)) + k := by
  have hpos : 0 < 2 ^ k := Nat.two_pow_pos k
  refine le_antisymm ?_ ?_
  · rw [Nat.clog_le_iff_le_pow Nat.one_lt_two, pow_add]
    calc n
      _ ≤ divCeil n (2 ^ k) * 2 ^ k := (divCeil_le_iff hpos).mp le_rfl
      _ ≤ 2 ^ Nat.clog 2 (divCeil n (2 ^ k)) * 2 ^ k := Nat.mul_le_mul_right _ (Nat.le_pow_clog Nat.one_lt_two _)
  · have hn := Nat.le_pow_clog Nat.one_lt_two n
    have hk : k < Nat.clog 2 n := (Nat.pow_lt_pow_iff_right Nat.one_lt_two).mp (lt_of_lt_of_le h hn)
    obtain ⟨d, hd⟩ := Nat.exists_eq_add_of_lt hk
    have hpow : n ≤ 2 ^ (d + 1) * 2 ^ k := by
      rw [← pow_add]
      refine hn.trans (le_of_eq ?_)
      rw [hd]
      congr 1
      omega
    have := (Nat.clog_le_iff_le_pow Nat.one_lt_two).mpr ((divCeil_le_iff hpos).mpr hpow)
    omega

variable {sha256 : List UInt8 → Id32}

/-- The root of a piece is the node over its blocks in the tree of the file. -/
theorem computeRootPadded_eq_node (blocks : List Id32) (k i : ℕ) :
    computeRootPadded sha256 ((blocks.drop (2 ^ k * i)).take (2 ^ k)) (2 ^ k) = hashNode sha256 (leavesOf blocks Id32.zero) k i := by
  unfold computeRootPadded
  rw [computeRootWithPad_eq_node (by rw [List.length_take]; exact min_le_left _ _), hashNode, hashNode, Merkle.node_shift k i]
  apply Merkle.node_congr
  intro b _ hb
  rw [Nat.zero_add, one_mul] at hb
  rw [leavesOf, leavesOf, List.getD_eq_getElem?_getD, List.getD_eq_getElem?_getD, List.getElem?_take_of_lt hb, List.getElem?_drop,
    Nat.mul_comm i]

/-- Where no piece is left, the tree of the file has the padding of the layer of pieces. -/
theorem leavesOf_pieceRoots (blocks : List Id32) {k : ℕ} (hk : k < 32) (i : ℕ) :
    leavesOf (pieceRoots sha256 blocks (2 ^ k)) (padHash sha256 (2 ^ k)) i = hashNode sha256 (leavesOf blocks Id32.zero) k i := by
  have hpos : 0 < 2 ^ k := Nat.two_pow_pos k
  by_cases hi : i < divCeil blocks.length (2 ^ k)
  · rw [leavesOf, List.getD_eq_getElem?_getD, pieceRoots, List.getElem?_map, List.getElem?_range hi, Option.map_some, Option.getD_some,
      computeRootPadded_eq_node]
  · have hend : blocks.length ≤ i * 2 ^ k := (divCeil_le_iff hpos).mp (not_lt.mp hi)
    rw [leavesOf_of_le (by rw [pieceRoots, List.length_map, List.length_range]; exact not_lt.mp hi), padHash_eq_node hk, padNode,
      hashNode, hashNode, Merkle.node_shift k i]
    apply Merkle.node_congr
    intro b _ _
    exact (leavesOf_of_le (by omega)).symm

/-- The root over the padded roots of two pieces or more is the root over all blocks. -/
theorem two_level_root (sha256 : List UInt8 → Id32) (blocks : List Id32) (k : ℕ) (hk : k < 32)
    (hpieces : 2 ≤ divCeil blocks.length (2 ^ k)) :
    pieceLayerRoot sha256 (pieceRoots sha256 blocks (2 ^ k)) (2 ^ k) = computeRoot sha256 blocks := by
  have hpos : 0 < 2 ^ k := Nat.two_pow_pos k
  have hmany : 2 ^ k < blocks.length := by
    by_contra hfew
    have hone : divCeil blocks.length (2 ^ k) ≤ 1 := by
      rw [divCeil_le_iff hpos, one_mul]
      exact not_lt.mp hfew
    omega
  have hlen : (pieceRoots sha256 blocks (2 ^ k)).length = divCeil blocks.length (2 ^ k) := by
    rw [pieceRoots, List.length_map, List.length_range]
  have hne : blocks ≠ [] := by
    rintro rfl
    exact absurd hmany (Nat.not_lt_zero _)
  rw [computeRoot_eq_node (clog_divCeil hmany) hne, pieceLayerRoot, nextPowerOfTwo,
    computeRootWithPad_eq_node (Nat.le_pow_clog Nat.one_lt_two _), hlen, Nat.add_comm _ k]
  calc hashNode sha256 (leavesOf (pieceRoots sha256 blocks (2 ^ k)) (padHash sha256 (2 ^ k))) (Nat.clog 2 (divCeil blocks.length (2 ^ k))) 0
    _ = hashNode sha256 (hashNode sha256 (leavesOf blocks Id32.zero) k) (Nat.clog 2 (divCeil blocks.length (2 ^ k))) 0 := by
      rw [show leavesOf (pieceRoots sha256 blocks (2 ^ k)) (padHash sha256 (2 ^ k)) = hashNode sha256 (leavesOf blocks Id32.zero) k from
        funext fun i => leavesOf_pieceRoots blocks hk i]
    _ = hashNode sha256 (leavesOf blocks Id32.zero) (k + Nat.clog 2 (divCeil blocks.length (2 ^ k))) 0 := Merkle.node_node _ _ _

/-- A hash of one byte over and over. -/
def leafOf (n : UInt8) : Id32 := Id32.ofSlice (List.replicate 32 n)

/-- Five blocks in pieces of two: the last piece is padded, and so is the layer. -/
theorem two_level_root_five :
    pieceLayerRoot Id32.ofSlice (pieceRoots Id32.ofSlice [leafOf 1, leafOf 2, leafOf 3, leafOf 4, leafOf 5] 2) 2 =
      computeRoot Id32.ofSlice [leafOf 1, leafOf 2, leafOf 3, leafOf 4, leafOf 5] :=
  two_level_root Id32.ofSlice [leafOf 1, leafOf 2, leafOf 3, leafOf 4, leafOf 5] 1 (by decide) (by show 2 ≤ divCeil 5 2; decide)

end

end Risuko
