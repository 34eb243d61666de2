import Risuko.Lemmas.PieceTracker
import Risuko.Lemmas.ProofTable
import Risuko.Lemmas.Storage
import Risuko.Lemmas.TorrentPaths
import Risuko.Lib.Runs
import Risuko.Metainfo.Verifier

/-!
# Where files lie

A list of files is `Aligned` when each file with data starts at the piece behind the pieces of the files before it, and what follows the
last one does not begin another piece. The list that is made of a v2 tree is, and the list of a hybrid torrent that agrees with its tree
is (`Accepted.laid`). Then the pieces are the pieces of the files laid end to end: for the file set, and for the piece verifier.
-/

namespace Risuko

namespace Metainfo

open Bencode (Value ByteVec)

variable {platform : Platform} {p : ℕ}

/-! ## Rounding up -/

theorem divCeil_mul_add (q n : ℕ) (hp : 0 < p) : divCeil (q * p + n) p = q + divCeil n p := by
  unfold divCeil
  rw [show q * p + n + p - 1 = p * q + (n + p - 1) by rw [Nat.mul_comm]; omega, Nat.mul_add_div hp]

theorem divCeil_eq_zero (n : ℕ) (hp : 0 < p) : divCeil n p = 0 ↔ n = 0 := by
  have h := divCeil_le_iff (a := n) (i := 0) hp
  rw [Nat.zero_mul, Nat.le_zero, Nat.le_zero] at h
  exact h

/-- The padding before a file with data ends at the next piece. -/
theorem add_v2AlignmentPadding (offset : ℕ) {length : ℕ} {pieceLength : UInt32} (hl : 0 < length) (hp : 0 < pieceLength.toNat) :
    offset + v2AlignmentPadding offset length pieceLength = divCeil offset pieceLength.toNat * pieceLength.toNat := by
  have hne : pieceLength ≠ 0 := by
    rintro rfl
    exact absurd hp (by decide)
  have hmod := Nat.mod_lt offset hp
  have hdiv := Nat.div_add_mod offset pieceLength.toNat
  have hceil : divCeil offset pieceLength.toNat =
      offset / pieceLength.toNat + divCeil (offset % pieceLength.toNat) pieceLength.toNat := by
    rw [← divCeil_mul_add _ _ hp, Nat.mul_comm, hdiv]
  unfold v2AlignmentPadding
  rw [if_neg (by simp [hne, hl.ne']), hceil, Nat.add_mul, Nat.mul_comm (offset / _)]
  split
  · rename_i hz
    rw [hz] at hdiv ⊢
    rw [(divCeil_eq_zero 0 hp).mpr rfl, Nat.zero_mul]
    omega
  · rename_i hpos
    have hone : divCeil (offset % pieceLength.toNat) pieceLength.toNat = 1 := by
      refine le_antisymm ((divCeil_le_iff hp).mpr (by omega)) (Nat.pos_of_ne_zero fun hz => hpos ?_)
      exact (divCeil_eq_zero _ hp).mp hz
    rw [hone, Nat.one_mul]
    omega

/-! ## Aligned lists -/

/-- Whether a file has data of its own. -/
def HasData (f : TorrentMetaInfo) : Bool := !f.padding && 0 < f.length

/-- From an offset on, with so many pieces before it: every file with data starts at the next piece, and no piece is left at the end. -/
def Aligned (p : ℕ) : List TorrentMetaInfo → ℕ → ℕ → Prop
  | [], offset, count => divCeil offset p = count
  | f :: rest, offset, count =>
    if HasData f then offset = count * p ∧ Aligned p rest (offset + f.length) (count + divCeil f.length p)
    else Aligned p rest (offset + f.length) count

/-- The numbers of pieces of the files with data. -/
def pieceCounts (p : ℕ) (files : List TorrentMetaInfo) : List ℕ := (files.filter HasData).map fun f => divCeil f.length p

theorem hasData_iff {f : TorrentMetaInfo} : HasData f = true ↔ f.padding = false ∧ 0 < f.length := by
  simp [HasData]

theorem pieceCounts_cons_of_data {f : TorrentMetaInfo} {rest : List TorrentMetaInfo} (h : HasData f = true) :
    pieceCounts p (f :: rest) = divCeil f.length p :: pieceCounts p rest := by
  simp [pieceCounts, List.filter_cons_of_pos h]

theorem pieceCounts_cons_of_not {f : TorrentMetaInfo} {rest : List TorrentMetaInfo} (h : ¬ HasData f = true) :
    pieceCounts p (f :: rest) = pieceCounts p rest := by
  simp [pieceCounts, List.filter_cons_of_neg h]

/-- The starts that the verifier computes are those of the runs of pieces. -/
theorem Aligned.fileStarts {files : List TorrentMetaInfo} {offset count : ℕ} (h : Aligned p files offset count) :
    PieceVerifier.fileStartsFrom files offset = (Runs.starts (pieceCounts p files) count).map (· * p) := by
  induction files generalizing offset count with
  | nil => rfl
  | cons f rest ih =>
    unfold Aligned at h
    unfold PieceVerifier.fileStartsFrom
    by_cases hf : HasData f = true
    · rw [if_pos hf] at h
      rw [if_pos (by simpa [HasData] using hf), pieceCounts_cons_of_data hf, Runs.starts, List.map_cons, ih h.2, h.1]
    · rw [if_neg hf] at h
      rw [if_neg (by simpa [HasData] using hf), pieceCounts_cons_of_not hf, ih h]

/-- The pieces of the whole list are the pieces of its files. -/
theorem Aligned.count {files : List TorrentMetaInfo} {offset count : ℕ} (h : Aligned p files offset count) :
    divCeil (offset + (files.map TorrentMetaInfo.length).sum) p = count + (pieceCounts p files).sum := by
  induction files generalizing offset count with
  | nil => exact h
  | cons f rest ih =>
    unfold Aligned at h
    rw [List.map_cons, List.sum_cons, ← Nat.add_assoc]
    by_cases hf : HasData f = true
    · rw [if_pos hf] at h
      rw [ih h.2, pieceCounts_cons_of_data hf, List.sum_cons, Nat.add_assoc]
    · rw [if_neg hf] at h
      rw [ih h, pieceCounts_cons_of_not hf]

/-- Alignment depends on the lengths and on what is padding. -/
theorem Aligned.congr {files files' : List TorrentMetaInfo} {offset count : ℕ}
    (hlen : files'.map TorrentMetaInfo.length = files.map TorrentMetaInfo.length)
    (hpad : files'.map TorrentMetaInfo.padding = files.map TorrentMetaInfo.padding) (h : Aligned p files offset count) :
    Aligned p files' offset count ∧
      (files'.filter HasData).map TorrentMetaInfo.length = (files.filter HasData).map TorrentMetaInfo.length := by
  induction files generalizing files' offset count with
  | nil =>
    rw [List.map_nil, List.map_eq_nil_iff] at hlen
    subst hlen
    exact ⟨h, rfl⟩
  | cons f rest ih =>
    cases files' with
    | nil => cases hlen
    | cons f' rest' =>
      simp only [List.map_cons, List.cons.injEq] at hlen hpad
      have hdata : HasData f' = HasData f := by simp only [HasData, hlen.1, hpad.1]
      unfold Aligned at h ⊢
      rw [hdata, hlen.1]
      by_cases hf : HasData f = true
      · rw [if_pos hf] at h ⊢
        obtain ⟨h1, h2⟩ := ih hlen.2 hpad.2 h.2
        refine ⟨⟨h.1, h1⟩, ?_⟩
        rw [List.filter_cons_of_pos (hdata.trans hf), List.filter_cons_of_pos hf, List.map_cons, List.map_cons, h2, hlen.1]
      · rw [if_neg hf] at h ⊢
        obtain ⟨h1, h2⟩ := ih hlen.2 hpad.2 h
        exact ⟨h1, by rw [List.filter_cons_of_neg (by rwa [hdata]), List.filter_cons_of_neg hf, h2]⟩

/-! ## The list of a v2 torrent -/

theorem aligned_empty {files : List TorrentMetaInfo} {offset count : ℕ} (hz : ∀ f ∈ files, f.length = 0)
    (h : divCeil offset p = count) : Aligned p files offset count := by
  induction files with
  | nil => exact h
  | cons f rest ih =>
    obtain ⟨hf, hrest⟩ := List.forall_mem_cons.mp hz
    unfold Aligned
    rw [if_neg (by simp [HasData, hf]), hf, Nat.add_zero]
    exact ih hrest

theorem aligned_facadeFiles {pieceLength : UInt32} (hp : 0 < pieceLength.toNat) {empty : List TorrentMetaInfo}
    (hz : ∀ f ∈ empty, f.length = 0) {files : List TorrentMetaInfoV2} (hpos : ∀ f ∈ files, 0 < f.length) (offset : ℕ) :
    Aligned pieceLength.toNat (facadeFiles pieceLength files offset ++ empty) offset (divCeil offset pieceLength.toNat) ∧
      ((facadeFiles pieceLength files offset ++ empty).filter HasData).map TorrentMetaInfo.length =
        files.map TorrentMetaInfoV2.length := by
  induction files generalizing offset with
  | nil =>
    refine ⟨aligned_empty hz rfl, ?_⟩
    have hnone : empty.filter HasData = [] := by
      rw [List.filter_eq_nil_iff]
      intro f hf
      simp [HasData, hz f hf]
    rw [facadeFiles, List.nil_append, hnone]
    rfl
  | cons f rest ih =>
    obtain ⟨hf, hrest⟩ := List.forall_mem_cons.mp hpos
    have hstart := add_v2AlignmentPadding offset hf hp
    obtain ⟨hal, hlen⟩ := ih hrest (offset + v2AlignmentPadding offset f.length pieceLength + f.length)
    have hdata : HasData ⟨f.path, f.length, false, f.executable⟩ = true := hasData_iff.mpr ⟨rfl, hf⟩
    -- The file itself, behind its padding.
    have hfile : Aligned pieceLength.toNat (⟨f.path, f.length, false, f.executable⟩ ::
        (facadeFiles pieceLength rest (offset + v2AlignmentPadding offset f.length pieceLength + f.length) ++ empty))
        (offset + v2AlignmentPadding offset f.length pieceLength) (divCeil offset pieceLength.toNat) := by
      unfold Aligned
      rw [if_pos hdata]
      refine ⟨hstart, ?_⟩
      rw [hstart, divCeil_mul_add _ _ hp, ← hstart] at hal
      exact hal
    unfold facadeFiles
    dsimp only
    split
    · refine ⟨?_, ?_⟩
      · rw [List.cons_append, List.cons_append]
        unfold Aligned
        rw [if_neg (by simp [HasData])]
        exact hfile
      · rw [List.cons_append, List.cons_append, List.filter_cons_of_neg (by simp [HasData]), List.filter_cons_of_pos hdata,
          List.map_cons, List.map_cons, hlen]
    · rename_i hzero
      have hnone : v2AlignmentPadding offset f.length pieceLength = 0 := by omega
      rw [hnone, Nat.add_zero] at hfile hlen
      exact ⟨hfile, by rw [List.cons_append, List.filter_cons_of_pos hdata, List.map_cons, List.map_cons, hlen]⟩

/-! ## The lists of a hybrid torrent -/

/-- What the comparison of the two lists has checked: it took up the expected files that are not left, and the v1 list is aligned. -/
theorem aligned_checkHybridFiles {pieceLength : UInt32} (hp : 0 < pieceLength.toNat) {files : List TorrentMetaInfo}
    {expected : List (List Text × ℕ)} {v1Offset v2Offset v1Stop v2Stop : ℕ}
    (h : checkHybridFiles pieceLength files expected v1Offset v2Offset = .ok ([], v1Stop, v2Stop))
    (hstop : divCeil v1Stop pieceLength.toNat = divCeil v2Stop pieceLength.toNat) :
    Aligned pieceLength.toNat files v1Offset (divCeil v2Offset pieceLength.toNat) ∧
      (files.filter HasData).map TorrentMetaInfo.length = (expected.map Prod.snd).filter (0 < ·) := by
  induction files generalizing expected v1Offset v2Offset with
  | nil =>
    cases h
    exact ⟨hstop, rfl⟩
  | cons f rest ih =>
    unfold checkHybridFiles at h
    unfold Aligned
    split at h
    · rename_i hpad
      have hnot : ¬ HasData f = true := by simp [HasData, hpad]
      rw [if_neg hnot, List.filter_cons_of_neg hnot]
      exact ih h
    · rename_i hpad
      split at h
      · cases h
      rename_i path length expected
      split at h
      · cases h
      rename_i hsame
      simp only [Bool.or_eq_true, decide_eq_true_eq, not_or, ne_eq, not_not] at hsame
      obtain ⟨-, rfl⟩ := hsame
      rw [List.map_cons]
      split at h
      · rename_i hpos
        have hdata : HasData f = true := hasData_iff.mpr ⟨by simpa using hpad, hpos⟩
        dsimp only at h
        split at h
        · cases h
        · rename_i hoffset
          have hstart := add_v2AlignmentPadding v2Offset hpos hp
          obtain ⟨hal, hlen⟩ := ih h
          rw [hstart, divCeil_mul_add _ _ hp] at hal
          rw [if_pos hdata, List.filter_cons_of_pos hdata, List.filter_cons_of_pos (by simpa using hpos), List.map_cons, hlen]
          exact ⟨⟨(not_not.mp hoffset).trans hstart, hal⟩, rfl⟩
      · rename_i hzero
        have hnot : ¬ HasData f = true := by simp [HasData, hzero]
        rw [if_neg hnot, List.filter_cons_of_neg hnot, List.filter_cons_of_neg (by simpa using hzero)]
        exact ih h

theorem collectTreeFiles_children {dict : List (ByteVec × Value)} (h : ∀ key leaf, dict = [(key, leaf)] → key.data ≠ [])
    (path : List Text) : collectTreeFiles (.dict dict) path = collectChildren dict path := by
  unfold collectTreeFiles
  split
  · rename_i key leaf heq
    cases heq
    rw [if_neg]
    intro hempty
    exact h _ _ rfl (List.isEmpty_iff.mp hempty)
  · rename_i heq
    cases heq
    rfl
  · rename_i hne
    exact (hne dict rfl).elim

mutual

/-- The parsed tree and the tree as it was collected have the same files with data, in the same order. -/
theorem lengths_flattenFileTree : ∀ (v : Value) {node : FileTreeNode} {path path' : List Text} {files : List TorrentMetaInfoV2}
    {empty : List (List Text)}, parseFileTree platform v = .ok node → flattenFileTree node path = .ok (files, empty) →
    files.map TorrentMetaInfoV2.length = ((collectTreeFiles v path').map Prod.snd).filter (0 < ·)
  | .dict dict, node, path, path', files, empty, h, hflat => by
    rcases parseFileTree_dict h with ⟨key, leaf, rfl, hkey, hleaf⟩ | ⟨hnot, children, hchildren, rfl⟩
    · obtain ⟨length, root, executable, hlength, rfl, -⟩ := parseLeaf_ok hleaf
      have hcollect : collectTreeFiles (.dict [(key, leaf)]) path' = [(path', length.toInt.toNat)] := by
        unfold collectTreeFiles
        rw [if_pos (List.isEmpty_iff.mpr hkey), hlength]
        rfl
      rw [hcollect]
      generalize length.toInt.toNat = n at hflat
      rcases flattenFileTree_file hflat with ⟨hz, rfl, rfl⟩ | ⟨hpos, rfl, r, rfl⟩
      · simp [hz]
      · simp [hpos]
    · rw [collectTreeFiles_children hnot]
      exact lengths_flattenChildren dict hchildren hflat

theorem lengths_flattenChildren : ∀ (dict : List (ByteVec × Value)) {used : List Text} {suffixes : Text → ℕ}
    {children : List (Text × FileTreeNode)} {path path' : List Text} {files : List TorrentMetaInfoV2} {empty : List (List Text)},
    parseChildren platform dict used suffixes = .ok children → flattenChildren children path = .ok (files, empty) →
    files.map TorrentMetaInfoV2.length = ((collectChildren dict path').map Prod.snd).filter (0 < ·)
  | [], used, suffixes, children, path, path', files, empty, h, hflat => by
    cases h
    cases hflat
    rfl
  | (key, child) :: rest, used, suffixes, children, path, path', files, empty, h, hflat => by
    obtain ⟨-, node, tail, hnode, htail, rfl⟩ := parseChildren_cons h
    obtain ⟨f, e, fs, es, hf, hfs, rfl, rfl⟩ := flattenChildren_cons hflat
    unfold collectChildren
    rw [List.map_append, List.map_append, List.filter_append, ← lengths_flattenFileTree child hnode hf,
      ← lengths_flattenChildren rest htail hfs]

end

/-! ## Accepted torrents -/

theorem checkedSum_foldlM {lengths : List ℕ} {acc t : ℕ}
    (h : lengths.foldlM (fun acc n => if acc + n < 2 ^ 64 then some (acc + n) else none) acc = some t) :
    acc + lengths.sum = t ∧ (acc < 2 ^ 64 → t < 2 ^ 64) := by
  induction lengths generalizing acc with
  | nil =>
    cases h
    exact ⟨Nat.add_zero _, id⟩
  | cons n rest ih =>
    rw [List.foldlM_cons] at h
    split at h
    · rename_i hlt
      obtain ⟨hsum, hbound⟩ := ih h
      exact ⟨by rw [List.sum_cons, ← Nat.add_assoc, hsum], fun _ => hbound hlt⟩
    · cases h

theorem checkedSum_some {lengths : List ℕ} {t : ℕ} (h : checkedSum lengths = some t) : lengths.sum = t ∧ t < 2 ^ 64 := by
  obtain ⟨hsum, hbound⟩ := checkedSum_foldlM h
  exact ⟨by rw [← hsum, Nat.zero_add], hbound (by decide)⟩

theorem checkPieceCount_ok {total : ℕ} {pieceLength : UInt32} (h : checkPieceCount total pieceLength = .ok ()) :
    divCeil total pieceLength.toNat ≤ maxPieces := by
  unfold checkPieceCount at h
  split at h
  · cases h
  split at h
  · cases h
  · omega

/-- The piece length is one value, however the errors are worded. -/
theorem parsePieceLength_ok {value : Value} {bad bad' : String → MetaError} {a b : UInt32} (h : parsePieceLength value bad = .ok a)
    (h' : parsePieceLength value bad' = .ok b) : a = b := by
  unfold parsePieceLength at h h'
  split at h
  · cases h
  rename_i n hn
  rw [hn] at h'
  dsimp only at h'
  split at h
  · cases h
  · rename_i hrange
    rw [if_neg hrange] at h'
    cases h
    cases h'
    rfl

/-- What a torrent with a tree has: one piece length, an aligned list, and in it the files of the tree, in their order. -/
structure Laid (torrent : TorrentMeta) (v2 : ValidatedTorrentMetaV2Info) : Prop where
  pieceLength : torrent.info.pieceLength = v2.pieceLength
  pos : 0 < v2.pieceLength.toNat
  aligned : Aligned v2.pieceLength.toNat torrent.info.files 0 0
  lengths : (torrent.info.files.filter HasData).map TorrentMetaInfo.length = v2.files.map TorrentMetaInfoV2.length
  nonempty : ∃ f ∈ v2.files, 0 < f.length
  pieces_le : divCeil (torrent.info.files.map TorrentMetaInfo.length).sum v2.pieceLength.toNat ≤ maxPieces

theorem pieceCounts_eq {files : List TorrentMetaInfo} {lengths : List ℕ}
    (h : (files.filter HasData).map TorrentMetaInfo.length = lengths) :
    pieceCounts p files = lengths.map fun n => divCeil n p := by
  rw [← h, List.map_map]
  rfl

/-- The files of a tree: they are those that were collected, none is empty, and there is one. -/
theorem files_validateInfoV2 {infoValue : Value} {v2 : ValidatedTorrentMetaV2Info} (h : validateInfoV2 platform infoValue = .ok v2) :
    (∃ tree, infoValue.get "file tree" = some tree ∧
      v2.files.map TorrentMetaInfoV2.length = ((collectTreeFiles tree []).map Prod.snd).filter (0 < ·)) ∧
      (∀ f ∈ v2.files, 0 < f.length) ∧ ∃ f ∈ v2.files, 0 < f.length := by
  obtain ⟨-, -, -, tree, children, n, total, hget, hparse, hflat, htotal, hzero, -⟩ := validateInfoV2_ok h
  have hlengths : v2.files.map TorrentMetaInfoV2.length = ((collectTreeFiles tree []).map Prod.snd).filter (0 < ·) :=
    lengths_flattenFileTree tree hparse hflat
  have hpos : ∀ f ∈ v2.files, 0 < f.length := by
    intro f hf
    have hmem := List.mem_map_of_mem (f := TorrentMetaInfoV2.length) hf
    rw [hlengths, List.mem_filter] at hmem
    exact of_decide_eq_true hmem.2
  refine ⟨⟨tree, hget, hlengths⟩, hpos, ?_⟩
  cases hfiles : v2.files with
  | nil =>
    rw [hfiles] at htotal
    exact absurd (Option.some.inj htotal).symm hzero
  | cons f rest =>
    rw [hfiles] at hpos
    exact ⟨f, List.mem_cons_self, hpos f List.mem_cons_self⟩

theorem laid_facade {fuel : ℕ} {infoValue : Value} {v2 : ValidatedTorrentMetaV2Info} {torrent : TorrentMeta}
    (hv2 : validateInfoV2 platform infoValue = .ok v2) (hinfo : synthesizeV1FacadeFromV2 platform fuel v2 = some torrent.info) :
    Laid torrent v2 := by
  obtain ⟨-, hpos, hne⟩ := files_validateInfoV2 hv2
  obtain ⟨-, hmin, -, -, -, n, -, -, -, -, -, -, -, hcount, hmax⟩ := validateInfoV2_ok hv2
  have hp : 0 < v2.pieceLength.toNat := by omega
  unfold synthesizeV1FacadeFromV2 at hinfo
  obtain ⟨files, hdedupe, heq⟩ := Option.map_eq_some_iff.mp hinfo
  obtain ⟨-, hlen, hpad⟩ := dedupeFileList_some (safe_facade hv2) hdedupe
  have hempty : ∀ f ∈ v2.emptyFiles.map (fun path => (⟨path, 0, false, false⟩ : TorrentMetaInfo)), f.length = 0 := by
    intro f hf
    obtain ⟨path, -, rfl⟩ := List.mem_map.mp hf
    rfl
  obtain ⟨hal, hdata⟩ := aligned_facadeFiles hp hempty hpos 0
  rw [(divCeil_eq_zero 0 hp).mpr rfl] at hal
  obtain ⟨hal', hdata'⟩ := hal.congr hlen hpad
  have hcounts : (pieceCounts v2.pieceLength.toNat files).sum = n := by
    rw [← (checkedSum_some hcount).1, pieceCounts_eq (hdata'.trans hdata), List.map_map]
    rfl
  have hfiles : torrent.info.files = files := by rw [← heq]
  have htotal := hal'.count
  rw [Nat.zero_add, Nat.zero_add, hcounts] at htotal
  exact ⟨by rw [← heq], hp, hfiles ▸ hal', hfiles ▸ hdata'.trans hdata, hne, by rw [hfiles, htotal]; exact hmax⟩

theorem laid_hybrid {fuel : ℕ} {infoValue : Value} {info : ValidatedTorrentMetaV1Info} {v2 : ValidatedTorrentMetaV2Info}
    {torrent : TorrentMeta} (hv1 : validateInfoUndeduped platform infoValue = .ok info)
    (hlength : torrent.info.pieceLength = info.pieceLength)
    (hfiles : dedupeFileList platform fuel info.files = some torrent.info.files)
    (hv2 : validateInfoV2 platform infoValue = .ok v2) (hlayout : checkHybridLayout info infoValue v2 = .ok ()) :
    Laid torrent v2 := by
  obtain ⟨⟨tree, hget, hlengths⟩, hpos, hne⟩ := files_validateInfoV2 hv2
  obtain ⟨hlen2, hmin, -⟩ := validateInfoV2_ok hv2
  obtain ⟨hlen1, hsafe, total, htotal, -, hcount, -⟩ := validateInfoUndeduped_ok hv1
  have hp : 0 < v2.pieceLength.toNat := by omega
  have hsame : info.pieceLength = v2.pieceLength := parsePieceLength_ok hlen1 hlen2
  obtain ⟨-, hlen, hpad⟩ := dedupeFileList_some hsafe hfiles
  unfold checkHybridLayout at hlayout
  rw [hget, hsame] at hlayout
  dsimp only [Option.map_some, Option.getD_some] at hlayout
  split at hlayout
  · cases hlayout
  rename_i expected v1Stop v2Stop hcheck
  split at hlayout
  · cases hlayout
  · rename_i hstop
    simp only [Bool.or_eq_true, Bool.not_eq_true', List.isEmpty_eq_false_iff, decide_eq_true_eq, not_or, ne_eq, not_not] at hstop
    obtain ⟨rfl, hstop⟩ := hstop
    obtain ⟨hal, hdata⟩ := aligned_checkHybridFiles hp hcheck hstop
    rw [(divCeil_eq_zero 0 hp).mpr rfl] at hal
    obtain ⟨hal', hdata'⟩ := hal.congr hlen hpad
    refine ⟨hlength.trans hsame, hp, hal', hdata'.trans (hdata.trans hlengths.symm), hne, ?_⟩
    rw [hlen, (checkedSum_some htotal).1, ← hsame]
    exact checkPieceCount_ok hcount

theorem Accepted.laid {fuel : ℕ} {torrent : TorrentMeta} {v2 : ValidatedTorrentMetaV2Info} (h : Accepted platform fuel torrent)
    (hinfo : torrent.infoV2 = some v2) : Laid torrent v2 := by
  cases h with
  | v2 infoValue v2' hv2 hversion hinfoV2 hfacade =>
    obtain rfl := Option.some.inj (hinfoV2.symm.trans hinfo)
    exact laid_facade hv2 hfacade
  | v1 infoValue info hv1 hversion hlength hfiles hybrid =>
    obtain ⟨hv2, hlayout⟩ := hybrid v2 hinfo
    exact laid_hybrid hv1 hlength hfiles hv2 hlayout

/-! ## The file set -/

/-- Where a file with data stands, and what follows it. -/
theorem Aligned.fileAt {files : List TorrentMetaInfo} {offset count k : ℕ} {f : TorrentMetaInfo} (h : Aligned p files offset count)
    (hk : (files.filter HasData)[k]? = some f) :
    ∃ idx, files[idx]? = some f ∧
      (FileSet.layOut offset (files.map TorrentMetaInfo.toStorage)).drop idx =
        ⟨f.length, (count + ((pieceCounts p files).take k).sum) * p, f.padding || f.path.isEmpty⟩ ::
          FileSet.layOut ((count + ((pieceCounts p files).take k).sum) * p + f.length)
            ((files.drop (idx + 1)).map TorrentMetaInfo.toStorage) ∧
      Aligned p (files.drop (idx + 1)) ((count + ((pieceCounts p files).take k).sum) * p + f.length)
        (count + ((pieceCounts p files).take k).sum + divCeil f.length p) := by
  induction files generalizing offset count k with
  | nil => cases hk
  | cons g rest ih =>
    unfold Aligned at h
    by_cases hg : HasData g = true
    · rw [if_pos hg] at h
      rw [List.filter_cons_of_pos hg] at hk
      rw [pieceCounts_cons_of_data hg]
      cases k with
      | zero =>
        cases hk
        refine ⟨0, rfl, ?_, ?_⟩
        · rw [List.take_zero, List.sum_nil, Nat.add_zero, ← h.1]
          rfl
        · simp only [List.take_zero, List.sum_nil, Nat.add_zero]
          rw [← h.1]
          exact h.2
      | succ k =>
        obtain ⟨idx, hget, hdrop, hal⟩ := ih h.2 hk
        rw [List.take_succ_cons, List.sum_cons, ← Nat.add_assoc]
        exact ⟨idx + 1, hget, hdrop, hal⟩
    · rw [if_neg hg] at h
      rw [List.filter_cons_of_neg hg] at hk
      rw [pieceCounts_cons_of_not hg]
      obtain ⟨idx, hget, hdrop, hal⟩ := ih h hk
      exact ⟨idx + 1, hget, hdrop, hal⟩

/-- Up to the next piece there is only padding. -/
theorem Aligned.spans_padding {files : List TorrentMetaInfo} {offset count remaining : ℕ} (h : Aligned p files offset count)
    (hr : remaining ≤ count * p - offset) (idx : ℕ) :
    ∀ span ∈ FileSet.spansFrom idx (FileSet.layOut offset (files.map TorrentMetaInfo.toStorage)) offset remaining,
      ∃ m f, span.fileIndex = idx + m ∧ files[m]? = some f ∧ f.padding = true := by
  induction files generalizing offset remaining idx with
  | nil => exact fun span hs => absurd hs List.not_mem_nil
  | cons f rest ih =>
    -- The spans of the rest, counted from here.
    have hnext : ∀ {offset remaining : ℕ}, Aligned p rest offset count → remaining ≤ count * p - offset →
        ∀ span ∈ FileSet.spansFrom (idx + 1) (FileSet.layOut offset (rest.map TorrentMetaInfo.toStorage)) offset remaining,
          ∃ m f', span.fileIndex = idx + m ∧ (f :: rest)[m]? = some f' ∧ f'.padding = true := by
      intro offset remaining hal hle span hs
      obtain ⟨m, f', hm, hf', hpad⟩ := ih hal hle (idx + 1) span hs
      exact ⟨m + 1, f', by omega, hf', hpad⟩
    unfold Aligned at h
    intro span hs
    rw [List.map_cons, FileSet.layOut, FileSet.spansFrom] at hs
    split at hs
    · exact absurd hs List.not_mem_nil
    · rename_i hne
      by_cases hf : HasData f = true
      · rw [if_pos hf] at h
        omega
      · rw [if_neg hf] at h
        split at hs
        · rename_i hz
          dsimp only [TorrentMetaInfo.toStorage] at hz hs
          rw [hz, Nat.add_zero] at h hs
          exact hnext h hr span hs
        · rename_i hz
          dsimp only [TorrentMetaInfo.toStorage] at hz
          have hpad : f.padding = true := by
            by_contra hnot
            exact hf (hasData_iff.mpr ⟨by simpa using hnot, Nat.pos_of_ne_zero hz⟩)
          rcases List.mem_cons.mp hs with rfl | hs
          · exact ⟨0, f, rfl, rfl, hpad⟩
          · split at hs
            · rename_i hend
              dsimp only [TorrentMetaInfo.toStorage] at hend hs
              have hall : offset + min (f.length - (offset - offset)) remaining = offset + f.length := by omega
              rw [hall] at hs
              exact hnext h (by omega) span hs
            · exact absurd hs List.not_mem_nil

theorem spansFrom_cons {idx length start cursor remaining : ℕ} {padding : Bool} {rest : List FileInfo} (hl : 0 < length)
    (hr : 0 < remaining) :
    FileSet.spansFrom idx (⟨length, start, padding⟩ :: rest) cursor remaining =
      ⟨idx, cursor - start, min (length - (cursor - start)) remaining⟩ ::
        if start + length ≤ cursor + min (length - (cursor - start)) remaining then
          FileSet.spansFrom (idx + 1) rest (cursor + min (length - (cursor - start)) remaining)
            (remaining - min (length - (cursor - start)) remaining)
        else [] := by
  rw [FileSet.spansFrom, if_neg hr.ne', if_neg hl.ne']

theorem getElem?_layOut {files : List Risuko.TorrentMetaInfo} (offset : ℕ) {n : ℕ} {f : Risuko.TorrentMetaInfo} (h : files[n]? = some f) :
    ∃ g, (FileSet.layOut offset files)[n]? = some g ∧ g.padding = (f.padding || f.pathIsEmpty) := by
  induction files generalizing offset n with
  | nil => cases h
  | cons f' rest ih =>
    cases n with
    | zero =>
      cases h
      exact ⟨_, rfl, rfl⟩
    | succ n => exact ih _ h

theorem isPadding_fileSet {info : ValidatedTorrentMetaV1Info} {n : ℕ} {f : TorrentMetaInfo} (h : info.files[n]? = some f)
    (hpad : f.padding = true) : info.fileSet.isPadding n = true := by
  have hstorage : (info.files.map TorrentMetaInfo.toStorage)[n]? = some f.toStorage := by
    rw [List.getElem?_map, h]
    rfl
  obtain ⟨g, hg, hgpad⟩ := getElem?_layOut 0 hstorage
  have hget : info.fileSet.files[n]? = some g := hg
  unfold FileSet.isPadding
  rw [hget]
  exact hgpad.trans (by rw [TorrentMetaInfo.toStorage, hpad, Bool.true_or])

/-- The file that holds a position is found. -/
theorem fileIndexFor_eq {set : FileSet} {idx pos : ℕ} {f : FileInfo} (hf : set.files[idx]? = some f)
    (hpos : f.offset ≤ pos ∧ pos < f.offset + f.length) : set.fileIndexFor pos = idx := by
  unfold FileSet.fileIndexFor
  cases hi : set.files.findIdx? (fun f => decide (f.offset ≤ pos) && decide (pos < f.offset + f.length)) with
  | none =>
    have hnot := List.findIdx?_eq_none_iff.mp hi f (List.mem_of_getElem? hf)
    simp [hpos] at hnot
  | some i =>
    obtain ⟨hlt, hin, -⟩ := List.findIdx?_eq_some_iff_getElem.mp hi
    simp only [Bool.and_eq_true, decide_eq_true_eq] at hin
    exact set.contiguous.unique (List.getElem?_eq_getElem hlt) hf hin hpos

/-- A piece is a whole piece, or what is left at the end. -/
theorem pieceLengthOf_eq_min {l : Lengths} (i : ValidPieceIndex l) :
    l.pieceLengthOf i = min l.pieceLength (l.totalLength - i.val * l.pieceLength) := by
  have htotal := PieceTracker.mul_add_lastLength l.total_pos l.piece_pos l.last_index
  have hi : i.val < l.lastPieceIndex + 1 := i.isLt
  unfold Lengths.pieceLengthOf
  rw [l.last_length]
  split
  · rename_i heq
    rw [heq]
    have hle : lastLength l.totalLength l.pieceLength ≤ l.pieceLength := Lengths.lastLength_le l.piece_pos
    omega
  · rename_i hne
    have hnext : (i.val + 1) * l.pieceLength ≤ l.lastPieceIndex * l.pieceLength := Nat.mul_le_mul_right _ (by omega)
    rw [Nat.succ_mul] at hnext
    omega

/-! ## Pieces of files -/

/-- Piece `i` of the torrent is piece `j` of file `k` of its tree: it starts there, among the data of the file. -/
structure PieceOf (torrent : TorrentMeta) (v2 : ValidatedTorrentMetaV2Info) (start : ℕ) (file : TorrentMetaInfoV2) (i k j : ℕ) :
    Prop where
  start_eq : (PieceVerifier.fileStartsFrom torrent.info.files 0)[k]? = some start
  file_eq : v2.files[k]? = some file
  offset_eq : start + j * v2.pieceLength.toNat = i * v2.pieceLength.toNat
  within : j * v2.pieceLength.toNat < file.length

/-- The numbers of pieces of the files of a tree. -/
abbrev ValidatedTorrentMetaV2Info.pieceCounts (v2 : ValidatedTorrentMetaV2Info) : List ℕ :=
  v2.files.map fun f => divCeil f.length v2.pieceLength.toNat

variable {torrent : TorrentMeta} {v2 : ValidatedTorrentMetaV2Info}

theorem Laid.counts (h : Laid torrent v2) : Metainfo.pieceCounts v2.pieceLength.toNat torrent.info.files = v2.pieceCounts := by
  rw [pieceCounts_eq h.lengths, List.map_map]
  rfl

theorem Laid.fileStarts (h : Laid torrent v2) :
    PieceVerifier.fileStartsFrom torrent.info.files 0 = (Runs.starts v2.pieceCounts 0).map (· * v2.pieceLength.toNat) := by
  rw [h.aligned.fileStarts, h.counts]

theorem Laid.total (h : Laid torrent v2) :
    divCeil (torrent.info.files.map TorrentMetaInfo.length).sum v2.pieceLength.toNat = v2.pieceCounts.sum := by
  have hcount := h.aligned.count
  rwa [Nat.zero_add, Nat.zero_add, h.counts] at hcount

/-- The pieces of the torrent are the pieces of its files, laid end to end. -/
theorem Laid.pieceOf_iff (h : Laid torrent v2) {i k j : ℕ} :
    (∃ start file, PieceOf torrent v2 start file i k j) ↔ Runs.At v2.pieceCounts i k j := by
  have hstart : ∀ {k file}, v2.files[k]? = some file → (PieceVerifier.fileStartsFrom torrent.info.files 0)[k]? =
      some ((v2.pieceCounts.take k).sum * v2.pieceLength.toNat) := by
    intro k file hfile
    obtain ⟨hk, -⟩ := List.getElem?_eq_some_iff.mp hfile
    rw [h.fileStarts, List.getElem?_map, Runs.getElem?_starts (by rwa [List.length_map]), Nat.zero_add]
    rfl
  constructor
  · rintro ⟨start, file, hs, hf, hoffset, hwithin⟩
    refine ⟨_, by rw [List.getElem?_map, hf]; rfl, (lt_divCeil_iff h.pos).mpr hwithin, ?_⟩
    have heq := Option.some.inj ((hstart hf).symm.trans hs)
    rw [← heq, ← Nat.add_mul] at hoffset
    exact Nat.eq_of_mul_eq_mul_right h.pos hoffset
  · rintro ⟨n, hn, hj, hi⟩
    rw [List.getElem?_map, Option.map_eq_some_iff] at hn
    obtain ⟨file, hf, rfl⟩ := hn
    exact ⟨_, file, hstart hf, hf, by rw [← Nat.add_mul, hi], (lt_divCeil_iff h.pos).mp hj⟩

theorem Laid.total_lt (h : Laid torrent v2) : (torrent.info.files.map TorrentMetaInfo.length).sum < 2 ^ 64 := by
  have hle := (divCeil_le_iff h.pos).mp h.pieces_le
  have hp := v2.pieceLength.toNat_lt
  calc (torrent.info.files.map TorrentMetaInfo.length).sum
    _ ≤ maxPieces * v2.pieceLength.toNat := hle
    _ ≤ maxPieces * 2 ^ 32 := Nat.mul_le_mul_left _ hp.le
    _ < 2 ^ 64 := by decide

theorem Laid.total_pos (h : Laid torrent v2) : 0 < (torrent.info.files.map TorrentMetaInfo.length).sum := by
  obtain ⟨f, hf, hpos⟩ := h.nonempty
  by_contra hz
  have hsum := h.total
  rw [Nat.eq_zero_of_not_pos hz, (divCeil_eq_zero 0 h.pos).mpr rfl] at hsum
  have hzero := List.sum_eq_zero_iff.mp hsum.symm _ (List.mem_map_of_mem hf)
  exact hpos.ne' ((divCeil_eq_zero _ h.pos).mp hzero)

theorem fileSet_totalLength (info : ValidatedTorrentMetaV1Info) :
    info.fileSet.totalLength = (info.files.map TorrentMetaInfo.length).sum := by
  have hsum : info.fileSet.totalLength = ((info.files.map TorrentMetaInfo.toStorage).map Risuko.TorrentMetaInfo.length).sum := rfl
  rw [hsum, List.map_map]
  rfl

theorem lengths_new_ok {total : UInt64} {piece : UInt32} (ht : 0 < total.toNat) (hp : 0 < piece.toNat)
    (hn : divCeil total.toNat piece.toNat < 2 ^ 32) :
    ∃ l, Lengths.new total piece = .ok l ∧ l.totalLength = total.toNat ∧ l.pieceLength = piece.toNat ∧
      l.totalPieces = divCeil total.toNat piece.toNat := by
  unfold Lengths.new
  rw [dif_neg ht.ne', dif_neg hp.ne', dif_neg (by omega)]
  exact ⟨_, rfl, rfl, rfl, Nat.sub_add_cancel (Lengths.divCeil_pos ht hp)⟩

/-- The geometry of the torrent: as many pieces as its files have. -/
theorem Laid.lengths_new (h : Laid torrent v2) :
    ∃ l : Lengths, Lengths.new (UInt64.ofNat torrent.info.fileSet.totalLength) torrent.info.pieceLength = .ok l ∧
      l.totalLength = torrent.info.fileSet.totalLength ∧ l.pieceLength = v2.pieceLength.toNat ∧
      l.totalPieces = v2.pieceCounts.sum := by
  have hofNat : (UInt64.ofNat torrent.info.fileSet.totalLength).toNat = torrent.info.fileSet.totalLength := by
    rw [UInt64.toNat_ofNat', fileSet_totalLength, Nat.mod_eq_of_lt h.total_lt]
  have hcount : divCeil (UInt64.ofNat torrent.info.fileSet.totalLength).toNat torrent.info.pieceLength.toNat =
      v2.pieceCounts.sum := by
    rw [hofNat, fileSet_totalLength, h.pieceLength, h.total]
  have hmax : v2.pieceCounts.sum < 2 ^ 32 := by
    rw [← h.total]
    exact lt_of_le_of_lt h.pieces_le (by decide)
  have hpos : 0 < (UInt64.ofNat torrent.info.fileSet.totalLength).toNat := by
    rw [hofNat, fileSet_totalLength]
    exact h.total_pos
  obtain ⟨l, hl, htotal, hpiece, hpieces⟩ := lengths_new_ok hpos (by rw [h.pieceLength]; exact h.pos) (hcount ▸ hmax)
  exact ⟨l, hl, htotal.trans hofNat, by rw [hpiece, h.pieceLength], hpieces.trans hcount⟩

/-- What the file set gives for a piece: the bytes of its file from there on, and behind them padding. -/
theorem Laid.spans (h : Laid torrent v2) (hsafe : ∀ f ∈ torrent.info.files, f.path ≠ []) {l : Lengths}
    (htotal : l.totalLength = torrent.info.fileSet.totalLength) (hpiece : l.pieceLength = v2.pieceLength.toNat)
    {i : ValidPieceIndex l} {k j start : ℕ} {file : TorrentMetaInfoV2} (hof : PieceOf torrent v2 start file i k j) :
    ∃ idx pads, torrent.info.fileSet.files[idx]? = some ⟨file.length, start, false⟩ ∧
      torrent.info.fileSet.spansFor (l.pieceOffset i) (l.pieceLengthOf i) =
        ⟨idx, j * l.pieceLength, min l.pieceLength (file.length - j * l.pieceLength)⟩ :: pads ∧
      ∀ span ∈ pads, torrent.info.fileSet.isPadding span.fileIndex = true := by
  have hp := h.pos
  have hat : Runs.At v2.pieceCounts i k j := h.pieceOf_iff.mp ⟨start, file, hof⟩
  obtain ⟨hk, -⟩ := List.getElem?_eq_some_iff.mp hof.file_eq
  -- The file in the v1 list, and where it starts.
  have hlength : ((torrent.info.files.filter HasData).map TorrentMetaInfo.length)[k]? = some file.length := by
    rw [h.lengths, List.getElem?_map, hof.file_eq]
    rfl
  rw [List.getElem?_map, Option.map_eq_some_iff] at hlength
  obtain ⟨f, hf, hflen⟩ := hlength
  obtain ⟨idx, hget, hdrop, hal⟩ := h.aligned.fileAt hf
  have hdata := hasData_iff.mp (List.mem_filter.mp (List.mem_of_getElem? hf)).2
  have hpath : (f.padding || f.path.isEmpty) = false := by
    rw [hdata.1, Bool.false_or, List.isEmpty_eq_false_iff]
    exact hsafe f (List.mem_of_getElem? hget)
  have hstart : start = (v2.pieceCounts.take k).sum * v2.pieceLength.toNat := by
    have hs := hof.start_eq
    rw [h.fileStarts, List.getElem?_map, Runs.getElem?_starts (by rwa [List.length_map]), Nat.zero_add] at hs
    exact (Option.some.inj hs).symm
  rw [h.counts, Nat.zero_add, ← hstart, hflen, hpath] at hdrop
  rw [h.counts, Nat.zero_add, ← hstart, hflen] at hal
  have hset : torrent.info.fileSet.files[idx]? = some ⟨file.length, start, false⟩ := by
    have hhead := congrArg List.head? hdrop
    rw [List.head?_drop] at hhead
    exact hhead
  have hwithin := hof.within
  have hoffset := hof.offset_eq
  have hend := (torrent.info.fileSet.contiguous.bounds hset).2
  dsimp only at hend
  -- The bytes of the piece, from its start in the file on.
  have hfirst : torrent.info.fileSet.fileIndexFor (l.pieceOffset i) = idx := by
    refine fileIndexFor_eq hset ?_
    unfold Lengths.pieceOffset
    dsimp only
    rw [hpiece]
    omega
  have hlen : l.pieceLengthOf i = min v2.pieceLength.toNat (torrent.info.fileSet.totalLength - i.val * v2.pieceLength.toNat) := by
    rw [pieceLengthOf_eq_min, htotal, hpiece]
  have hcursor : l.pieceOffset i - start = j * v2.pieceLength.toNat := by
    unfold Lengths.pieceOffset
    rw [hpiece]
    omega
  have htake : min (file.length - j * v2.pieceLength.toNat) (l.pieceLengthOf i) =
      min v2.pieceLength.toNat (file.length - j * v2.pieceLength.toNat) := by omega
  have hspans : torrent.info.fileSet.spansFor (l.pieceOffset i) (l.pieceLengthOf i) =
      ⟨idx, j * v2.pieceLength.toNat, min v2.pieceLength.toNat (file.length - j * v2.pieceLength.toNat)⟩ ::
        if start + file.length ≤ l.pieceOffset i + min v2.pieceLength.toNat (file.length - j * v2.pieceLength.toNat) then
          FileSet.spansFrom (idx + 1)
            (FileSet.layOut (start + file.length) ((torrent.info.files.drop (idx + 1)).map TorrentMetaInfo.toStorage))
            (l.pieceOffset i + min v2.pieceLength.toNat (file.length - j * v2.pieceLength.toNat))
            (l.pieceLengthOf i - min v2.pieceLength.toNat (file.length - j * v2.pieceLength.toNat))
        else [] := by
    unfold FileSet.spansFor
    dsimp only
    rw [hfirst]
    refine (congrArg (fun files => FileSet.spansFrom idx files _ _) hdrop).trans ?_
    rw [spansFrom_cons (by omega) (Lengths.pieceLengthOf_pos i), hcursor, htake]
  rw [hpiece]
  refine ⟨idx, _, hset, hspans, ?_⟩
  intro span hs
  split at hs
  · rename_i hlast
    have hstop : l.pieceOffset i + min v2.pieceLength.toNat (file.length - j * v2.pieceLength.toNat) = start + file.length := by
      omega
    -- The file ends in this piece, and the next one starts at the next.
    have hcount : divCeil file.length v2.pieceLength.toNat = j + 1 := by
      refine le_antisymm ((divCeil_le_iff hp).mpr ?_) ((lt_divCeil_iff hp).mpr hwithin)
      rw [Nat.succ_mul]
      omega
    rw [hcount] at hal
    rw [hstop] at hs
    obtain ⟨m, f', hm, hf', hpad⟩ := hal.spans_padding (by rw [Nat.add_mul, ← hstart, Nat.succ_mul]; omega) _ span hs
    rw [List.getElem?_drop] at hf'
    rw [hm]
    exact isPadding_fileSet hf' hpad
  · exact absurd hs List.not_mem_nil

/-! ## The verifier -/

theorem Laid.files_pos (h : Laid torrent v2) : ∀ f ∈ v2.files, 0 < f.length := by
  intro f hf
  have hmem := List.mem_map_of_mem (f := TorrentMetaInfoV2.length) hf
  rw [← h.lengths] at hmem
  obtain ⟨g, hg, hlen⟩ := List.mem_map.mp hmem
  rw [← hlen]
  exact (hasData_iff.mp (List.mem_filter.mp hg).2).2

theorem Laid.file_le (h : Laid torrent v2) {f : TorrentMetaInfoV2} (hf : f ∈ v2.files) :
    divCeil f.length v2.pieceLength.toNat ≤ maxPieces := by
  have hle : divCeil f.length v2.pieceLength.toNat ≤ v2.pieceCounts.sum := List.single_le_sum (fun _ _ => Nat.zero_le _) _ (List.mem_map_of_mem hf)
  rw [← h.total] at hle
  exact hle.trans h.pieces_le

/-- A v2 torrent has no overflow in its offsets: they are the starts of the files, and where the last one stops. -/
theorem fileOffsetsFrom_eq {pieceLength : UInt32} (hp : 0 < pieceLength.toNat) {files : List TorrentMetaInfoV2}
    (hpos : ∀ f ∈ files, 0 < f.length) {acc : ℕ}
    (hle : divCeil acc pieceLength.toNat + (files.map fun f => divCeil f.length pieceLength.toNat).sum ≤ maxPieces) :
    ∃ stop, PieceVerifier.fileOffsetsFrom pieceLength files acc =
        .ok ((Runs.starts (files.map fun f => divCeil f.length pieceLength.toNat) (divCeil acc pieceLength.toNat)).map
          (· * pieceLength.toNat) ++ [stop]) ∧
      divCeil stop pieceLength.toNat =
        divCeil acc pieceLength.toNat + (files.map fun f => divCeil f.length pieceLength.toNat).sum := by
  induction files generalizing acc with
  | nil => exact ⟨acc, rfl, rfl⟩
  | cons f rest ih =>
    obtain ⟨hf, hrest⟩ := List.forall_mem_cons.mp hpos
    have hstart := add_v2AlignmentPadding acc hf hp
    rw [List.map_cons, List.sum_cons, ← Nat.add_assoc] at hle ⊢
    have hnext : divCeil (divCeil acc pieceLength.toNat * pieceLength.toNat + f.length) pieceLength.toNat =
        divCeil acc pieceLength.toNat + divCeil f.length pieceLength.toNat := divCeil_mul_add _ _ hp
    obtain ⟨stop, hoffsets, hstop⟩ := ih hrest (hnext ▸ hle)
    have hlt : divCeil acc pieceLength.toNat * pieceLength.toNat + f.length < 2 ^ 64 := by
      have hceil := (divCeil_le_iff hp).mp (hnext ▸ Nat.le_of_add_right_le hle)
      calc divCeil acc pieceLength.toNat * pieceLength.toNat + f.length
        _ ≤ maxPieces * pieceLength.toNat := hceil
        _ ≤ maxPieces * 2 ^ 32 := Nat.mul_le_mul_left _ pieceLength.toNat_lt.le
        _ < 2 ^ 64 := by decide
    refine ⟨stop, ?_, hnext ▸ hstop⟩
    unfold PieceVerifier.fileOffsetsFrom
    dsimp only
    rw [hstart, if_neg (by omega), hoffsets, hnext, Runs.starts, List.map_cons, List.cons_append]

/-- The file that a verifier finds is the file of the run of the piece. -/
theorem filesUpTo_starts {counts : List ℕ} {i k j : ℕ} (hp : 0 < p) (h : Runs.At counts i k j) (tail : List ℕ)
    (htail : ∀ s ∈ tail.head?, i * p < s) :
    PieceVerifier.filesUpTo ((Runs.starts counts 0).map (· * p) ++ tail) (i * p) = k + 1 := by
  have hnone : tail.takeWhile (fun start => decide (start ≤ i * p)) = [] := by
    cases tail with
    | nil => rfl
    | cons s rest =>
      have hlt := htail s rfl
      exact List.takeWhile_cons_of_neg (by simp only [decide_eq_true_eq]; omega)
  have hruns : ((Runs.starts counts 0).map (· * p)).takeWhile (fun start => decide (start ≤ i * p)) =
      ((Runs.starts counts 0).takeWhile fun s => s ≤ 0 + i).map (· * p) := by
    rw [List.takeWhile_map]
    congr 2
    funext s
    simp only [Function.comp_apply, Nat.zero_add, decide_eq_decide]
    exact Nat.mul_le_mul_right_iff hp
  have hcount : (((Runs.starts counts 0).map (· * p)).takeWhile fun start => decide (start ≤ i * p)).length = k + 1 := by
    rw [hruns, List.length_map, h.length_takeWhile]
  unfold PieceVerifier.filesUpTo
  rw [List.takeWhile_append, hnone, List.append_nil]
  split
  · rename_i hall
    rw [← hall, hcount]
  · exact hcount

variable {sha256 : List UInt8 → Id32}

theorem buildV2Tables_ok {pieceLength : UInt32} {files : List TorrentMetaInfoV2} {tables : List MerkleProofTable}
    (h : PieceVerifier.buildV2Tables sha256 torrent pieceLength files = .ok tables) {k : ℕ} {file : TorrentMetaInfoV2}
    (hk : files[k]? = some file) :
    ∃ table, tables[k]? = some table ∧ PieceVerifier.buildV2Table sha256 torrent pieceLength file = .ok table := by
  induction files generalizing tables k with
  | nil => cases hk
  | cons f rest ih =>
    unfold PieceVerifier.buildV2Tables at h
    split at h
    · cases h
    rename_i table htable
    split at h
    · cases h
    · rename_i tail htail
      cases h
      cases k with
      | zero =>
        cases hk
        exact ⟨table, rfl, htable⟩
      | succ k => exact ih htail hk

/-- The table of a file knows the size of each of its pieces. -/
theorem Laid.pieceSize (h : Laid torrent v2) {file : TorrentMetaInfoV2} (hf : file ∈ v2.files) {table : MerkleProofTable}
    (htable : PieceVerifier.buildV2Table sha256 torrent v2.pieceLength file = .ok table) {j : ℕ}
    (hj : j * v2.pieceLength.toNat < file.length) :
    table.pieceSize (UInt32.ofNat j) = some (min v2.pieceLength.toNat (file.length - j * v2.pieceLength.toNat)) := by
  obtain ⟨hlength, hpiece, hcount⟩ := MerkleProofTable.geometry_of_fromLayerBytes htable
  have hmax := h.file_le hf
  have hlt : file.length < 2 ^ 64 := by
    calc file.length
      _ ≤ maxPieces * v2.pieceLength.toNat := (divCeil_le_iff h.pos).mp hmax
      _ ≤ maxPieces * 2 ^ 32 := Nat.mul_le_mul_left _ v2.pieceLength.toNat_lt.le
      _ < 2 ^ 64 := by decide
  have hlen : (UInt64.ofNat file.length).toNat = file.length := by
    rw [UInt64.toNat_ofNat', Nat.mod_eq_of_lt hlt]
  have hceil := (lt_divCeil_iff h.pos).mpr hj
  unfold maxPieces at hmax
  have hidx : (UInt32.ofNat j).toNat = j := by
    rw [UInt32.toNat_ofNat', Nat.mod_eq_of_lt (by omega)]
  have hpieces : table.pieceCount.toNat = divCeil file.length v2.pieceLength.toNat := by
    rw [hcount, pieceCountOf, hlen, UInt32.toNat_ofNat', Nat.mod_eq_of_lt (by omega)]
  unfold MerkleProofTable.pieceSize
  rw [if_neg (by rw [UInt32.le_iff_toNat_le, hpieces, hidx]; omega)]
  dsimp only
  rw [hidx, hpiece, hlength, hlen]
  congr 1
  omega

/-- The verifier takes piece `i` for piece `j` of file `k`, and the table of the file, where there is one, for as long as the piece is. A
verifier without tables looks at no file. -/
def Assigns (file : TorrentMetaInfoV2) (i k j : ℕ) : PieceVerifier → Prop
  | .v1Sha1 _ => True
  | .hybrid _ tables fileStarts pieceLength =>
    PieceVerifier.filesUpTo fileStarts (i * pieceLength.toNat) = k + 1 ∧
      (PieceVerifier.localPieceIdx fileStarts pieceLength (i * pieceLength.toNat) k).toNat = j ∧ k < tables.length ∧
      ∀ table, tables[k]? = some (some table) →
        table.pieceSize (UInt32.ofNat j) = some (min pieceLength.toNat (file.length - j * pieceLength.toNat))
  | .v2Merkle tables fileOffsets pieceLength =>
    PieceVerifier.filesUpTo fileOffsets (i * pieceLength.toNat) = k + 1 ∧
      (PieceVerifier.localPieceIdx fileOffsets pieceLength (i * pieceLength.toNat) k).toNat = j ∧
      ∃ table, tables[k]? = some table ∧
        table.pieceSize (UInt32.ofNat j) = some (min pieceLength.toNat (file.length - j * pieceLength.toNat))

/-- Where the starts that a verifier keeps are those of the files, it finds the piece of the file. -/
theorem Laid.localPieceIdx (h : Laid torrent v2) {i k j start : ℕ} {file : TorrentMetaInfoV2}
    (hof : PieceOf torrent v2 start file i k j) (tail : List ℕ) :
    (PieceVerifier.localPieceIdx ((Runs.starts v2.pieceCounts 0).map (· * v2.pieceLength.toNat) ++ tail) v2.pieceLength
      (i * v2.pieceLength.toNat) k).toNat = j := by
  have hmax := h.file_le (List.mem_of_getElem? hof.file_eq)
  have hceil := (lt_divCeil_iff h.pos).mpr hof.within
  unfold maxPieces at hmax
  have hstart : ((Runs.starts v2.pieceCounts 0).map (· * v2.pieceLength.toNat) ++ tail).getD k 0 = start := by
    have hs := hof.start_eq
    rw [h.fileStarts] at hs
    rw [List.getD_eq_getElem?_getD, List.getElem?_append_left (List.getElem?_eq_some_iff.mp hs).1, hs]
    rfl
  unfold PieceVerifier.localPieceIdx
  rw [hstart, ← hof.offset_eq, Nat.add_sub_cancel_left, Nat.mul_div_cancel _ h.pos, UInt32.toNat_ofNat', Nat.mod_eq_of_lt (by omega)]

theorem Laid.assigns_hybrid (h : Laid torrent v2) (hinfo : torrent.infoV2 = some v2) {pieces : List UInt8} {verifier : PieceVerifier}
    (hv : PieceVerifier.hybridOf sha256 torrent pieces = some verifier) {i k j start : ℕ} {file : TorrentMetaInfoV2}
    (hof : PieceOf torrent v2 start file i k j) : Assigns file i k j verifier := by
  have hmem := List.mem_of_getElem? hof.file_eq
  unfold PieceVerifier.hybridOf at hv
  rw [hinfo] at hv
  dsimp only at hv
  split at hv
  · cases hv
  split at hv
  · cases hv
  · cases hv
    have hat := h.pieceOf_iff.mp ⟨start, file, hof⟩
    have hfiles := filesUpTo_starts h.pos hat [] (by simp)
    have hlocal := h.localPieceIdx hof []
    rw [List.append_nil, ← h.fileStarts] at hfiles hlocal
    refine ⟨hfiles, hlocal, ?_, fun table htable => ?_⟩
    · rw [List.length_map]
      exact (List.getElem?_eq_some_iff.mp hof.file_eq).1
    · rw [List.getElem?_map, hof.file_eq] at htable
      have hok := Option.some.inj htable
      dsimp only at hok
      cases hbuild : PieceVerifier.buildV2Table sha256 torrent v2.pieceLength file with
      | error e =>
        rw [hbuild] at hok
        cases hok
      | ok t =>
        rw [hbuild] at hok
        cases hok
        exact h.pieceSize hmem hbuild hof.within

theorem Laid.assigns_v2 (h : Laid torrent v2) {tables : List MerkleProofTable} {fileOffsets : List ℕ}
    (htables : PieceVerifier.buildV2Tables sha256 torrent v2.pieceLength v2.files = .ok tables)
    (hoffsets : PieceVerifier.fileOffsetsFrom v2.pieceLength v2.files 0 = .ok fileOffsets) {i k j start : ℕ}
    {file : TorrentMetaInfoV2} (hof : PieceOf torrent v2 start file i k j) :
    Assigns file i k j (.v2Merkle tables fileOffsets v2.pieceLength) := by
  have hat := h.pieceOf_iff.mp ⟨start, file, hof⟩
  have hzero : divCeil 0 v2.pieceLength.toNat = 0 := (divCeil_eq_zero 0 h.pos).mpr rfl
  have hle : divCeil 0 v2.pieceLength.toNat + v2.pieceCounts.sum ≤ maxPieces := by
    rw [hzero, Nat.zero_add, ← h.total]
    exact h.pieces_le
  obtain ⟨stop, heq, hstop⟩ := fileOffsetsFrom_eq h.pos h.files_pos hle
  rw [hzero] at heq
  rw [hzero, Nat.zero_add] at hstop
  obtain rfl := Except.ok.inj (hoffsets.symm.trans heq)
  have hlast : i * v2.pieceLength.toNat < stop := by
    rw [← lt_divCeil_iff h.pos, hstop]
    exact hat.lt_sum
  obtain ⟨table, hget, hbuild⟩ := buildV2Tables_ok htables hof.file_eq
  refine ⟨filesUpTo_starts h.pos hat _ ?_, h.localPieceIdx hof _, table, hget,
    h.pieceSize (List.mem_of_getElem? hof.file_eq) hbuild hof.within⟩
  intro s hs
  cases hs
  exact hlast

/-- The verifier of a torrent with a tree: tables of its files, or of a hybrid torrent of which no layer can be used, only the v1
hashes. -/
theorem Laid.fromMeta (h : Laid torrent v2) (hinfo : torrent.infoV2 = some v2) {verifier : PieceVerifier}
    (hv : PieceVerifier.fromMeta sha256 torrent = .ok verifier) :
    (∀ {i k j start file}, PieceOf torrent v2 start file i k j → Assigns file i k j verifier) ∧
      ∀ pieces, verifier = .v1Sha1 pieces →
        ∀ file ∈ v2.files, (PieceVerifier.buildV2Table sha256 torrent v2.pieceLength file).toOption = none := by
  unfold PieceVerifier.fromMeta at hv
  rw [hinfo] at hv
  split at hv
  · rename_i heq
    cases heq
    split at hv
    · cases hv
    rename_i tables htables
    split at hv
    · cases hv
    · rename_i fileOffsets hoffsets
      cases hv
      exact ⟨fun hof => h.assigns_v2 htables hoffsets hof, fun pieces e => by cases e⟩
  · have heq := Except.ok.inj hv
    cases hhybrid : PieceVerifier.hybridOf sha256 torrent torrent.info.pieces with
    | some own =>
      rw [hhybrid, Option.getD_some] at heq
      subst heq
      refine ⟨fun hof => h.assigns_hybrid hinfo hhybrid hof, fun pieces e => ?_⟩
      subst e
      unfold PieceVerifier.hybridOf at hhybrid
      rw [hinfo] at hhybrid
      dsimp only at hhybrid
      split at hhybrid
      · cases hhybrid
      split at hhybrid
      · cases hhybrid
      · cases hhybrid
    | none =>
      rw [hhybrid, Option.getD_none] at heq
      subst heq
      refine ⟨fun _ => trivial, fun pieces _ file hf => ?_⟩
      unfold PieceVerifier.hybridOf at hhybrid
      rw [hinfo] at hhybrid
      dsimp only at hhybrid
      rw [h.fileStarts, List.length_map, Runs.length_starts, List.length_map, if_neg (not_not.mpr rfl)] at hhybrid
      split at hhybrid
      · rename_i hall
        exact Option.isNone_iff_eq_none.mp (List.all_eq_true.mp hall _ (List.mem_map_of_mem hf))
      · cases hhybrid

end Metainfo

end Risuko
