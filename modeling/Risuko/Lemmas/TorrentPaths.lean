import Risuko.Lemmas.Components
import Risuko.Metainfo.Torrent

/-!
# Paths of torrents

Every path that the parser puts into a file list is safe: the paths of the v1 list (`validateInfoUndeduped_ok`), those of the v2 tree
(`safe_flattenFileTree`), and what the renaming makes of them. On disk they lie under the root (`diskPath_eq`).
-/

namespace Risuko

namespace Metainfo

open Bencode (Value ByteVec)

variable {platform : Platform}
variable {files : List TorrentMetaInfo} {value : Value} {name : Text} {fuel : ℕ} {torrent : TorrentMeta}

/-! ## The v1 list -/

theorem safe_parseComponents {list : List Value} {components : List Text} (h : parseComponents platform list = .ok components) :
    ∀ c ∈ components, SafeComponent platform c := by
  induction list generalizing components with
  | nil =>
    cases h
    exact fun c hc => absurd hc List.not_mem_nil
  | cons v rest ih =>
    unfold parseComponents at h
    split at h
    · cases h
    rename_i s _
    split at h
    · cases h
    rename_i hsafe
    rw [Bool.not_eq_true, Bool.not_eq_false'] at hsafe
    split at h
    · cases h
    · rename_i tail htail
      cases h
      exact List.forall_mem_cons.mpr ⟨isSafeComponent_iff.mp hsafe, ih htail⟩

theorem safe_parseFileEntry {entry : Value} {file : TorrentMetaInfo} (h : parseFileEntry platform entry = .ok file) :
    SafePath platform file.path := by
  unfold parseFileEntry at h
  split at h
  · cases h
  split at h
  · cases h
  rename_i length _
  split at h
  · cases h
  dsimp only at h
  split at h
  · cases h
  split at h
  · cases h
  rename_i components hcomponents
  split at h
  · cases h
  cases h
  dsimp only
  split
  · refine ⟨by simp, fun c hc => ?_⟩
    rw [List.mem_pair] at hc
    rcases hc with rfl | rfl
    · exact safe_pad
    · exact safe_showNat _
  · rename_i hne
    exact ⟨fun e => hne (List.isEmpty_iff.mpr e), safe_parseComponents hcomponents⟩

theorem safe_parseFileList {list : List Value} (h : parseFileList platform list = .ok files) :
    ∀ f ∈ files, SafePath platform f.path := by
  induction list generalizing files with
  | nil =>
    cases h
    exact fun f hf => absurd hf List.not_mem_nil
  | cons entry rest ih =>
    unfold parseFileList at h
    split at h
    · cases h
    rename_i file hfile
    split at h
    · cases h
    · rename_i tail htail
      cases h
      exact List.forall_mem_cons.mpr ⟨safe_parseFileEntry hfile, ih htail⟩

theorem safe_parseFiles (hname : SafeComponent platform name)
    {single : Bool} (h : parseFiles platform value name = .ok (files, single)) : ∀ f ∈ files, SafePath platform f.path := by
  unfold parseFiles at h
  split at h
  · split at h
    · cases h
    · rename_i hlist
      cases h
      exact safe_parseFileList hlist
  · split at h
    · cases h
    split at h
    · cases h
    · cases h
      intro f hf
      rw [List.mem_singleton.mp hf]
      exact ⟨by simp, fun c hc => List.mem_singleton.mp hc ▸ hname⟩

/-- What `validate_info_undeduped` has checked. -/
theorem validateInfoUndeduped_ok {info : ValidatedTorrentMetaV1Info}
    (h : validateInfoUndeduped platform value = .ok info) :
    parsePieceLength value .badInfo = .ok info.pieceLength ∧ (∀ f ∈ info.files, SafePath platform f.path) ∧
      ∃ total, checkedSum (info.files.map TorrentMetaInfo.length) = some total ∧ total ≠ 0 ∧
        checkPieceCount total info.pieceLength = .ok () ∧
        info.pieces.length = divCeil total info.pieceLength.toNat * 20 := by
  unfold validateInfoUndeduped at h
  split at h
  · cases h
  split at h
  · cases h
  rename_i pieceLength hlength
  split at h
  · cases h
  split at h
  · cases h
  split at h
  · cases h
  split at h
  · cases h
  rename_i hname
  rw [Bool.not_eq_true, Bool.not_eq_false'] at hname
  split at h
  · cases h
  rename_i files single hfiles
  split at h
  · cases h
  rename_i total htotal
  split at h
  · cases h
  rename_i hzero
  split at h
  · cases h
  rename_i hcount
  split at h
  · cases h
  · rename_i hpieces
    cases h
    exact ⟨hlength, safe_parseFiles (isSafeComponent_iff.mp hname) hfiles, total, htotal, hzero, hcount,
      not_not.mp hpieces⟩

/-! ## The v2 tree -/

theorem safe_childName {used : List Text} {suffixes : Text → ℕ} (h : SafeComponent platform name) :
    SafeComponent platform (childName used suffixes name).1 := by
  have hunique : ∀ fuel next candidate, SafeComponent platform candidate →
      SafeComponent platform (uniqueName used name fuel candidate next).1 := by
    intro fuel
    induction fuel with
    | zero =>
      intro next candidate hc
      exact hc
    | succ fuel ih =>
      intro next candidate hc
      unfold uniqueName
      split
      · exact ih _ _ (safe_numberedName h _)
      · exact hc
  unfold childName
  split
  · exact hunique _ _ _ h
  · exact h

mutual

/-- All names in a tree are safe. -/
def FileTreeNode.NamesSafe (platform : Platform) : FileTreeNode → Prop
  | .dir children => FileTreeNode.AllNamesSafe platform children
  | .file .. => True

def FileTreeNode.AllNamesSafe (platform : Platform) : List (Text × FileTreeNode) → Prop
  | [] => True
  | (name, child) :: rest => SafeComponent platform name ∧ FileTreeNode.NamesSafe platform child ∧ FileTreeNode.AllNamesSafe platform rest

end

theorem parseFileTree_dict {dict : List (ByteVec × Value)} {node : FileTreeNode} (h : parseFileTree platform (.dict dict) = .ok node) :
    (∃ key leaf, dict = [(key, leaf)] ∧ key.data = [] ∧ parseLeaf leaf = .ok node) ∨
      (∀ key leaf, dict = [(key, leaf)] → key.data ≠ []) ∧
        ∃ children, parseChildren platform dict [] (fun _ => 0) = .ok children ∧ node = .dir children := by
  unfold parseFileTree at h
  split at h
  · rename_i key leaf heq
    cases heq
    split at h
    · rename_i hempty
      exact Or.inl ⟨key, leaf, rfl, List.isEmpty_iff.mp hempty, h⟩
    · rename_i hne
      split at h
      · cases h
      · rename_i children hchildren
        cases h
        refine Or.inr ⟨?_, children, hchildren, rfl⟩
        intro key' leaf' heq
        cases heq
        exact fun e => hne (List.isEmpty_iff.mpr e)
  · rename_i hnot heq
    cases heq
    split at h
    · cases h
    · rename_i children hchildren
      cases h
      exact Or.inr ⟨fun key leaf e => (hnot key leaf e).elim, children, hchildren, rfl⟩
  · cases h

/-- What a leaf says of its file. -/
theorem parseLeaf_ok {leaf : Value} {node : FileTreeNode} (h : parseLeaf leaf = .ok node) :
    ∃ (length : Int64) (root : Option Id32) (executable : Bool), (leaf.get "length").bind Value.asInt = some length ∧
      node = .file length.toInt.toNat root executable ∧ (0 < length.toInt → root ≠ none) := by
  unfold parseLeaf at h
  split at h
  · cases h
  split at h
  · cases h
  rename_i length hlength
  split at h
  · cases h
  dsimp only at h
  split at h
  · cases h
  split at h
  · cases h
  · rename_i hroot
    cases h
    refine ⟨length, _, _, hlength, rfl, fun hpos hnone => ?_⟩
    rw [Option.map_eq_none_iff] at hnone
    rw [hnone] at hroot
    simp [hpos] at hroot

theorem parseChildren_cons {key : ByteVec} {child : Value} {rest : List (ByteVec × Value)} {used : List Text} {suffixes : Text → ℕ}
    {children : List (Text × FileTreeNode)} (h : parseChildren platform ((key, child) :: rest) used suffixes = .ok children) :
    SafeComponent platform (componentText key.data) ∧ ∃ node tail, parseFileTree platform child = .ok node ∧
      parseChildren platform rest ((childName used suffixes (componentText key.data)).1 :: used)
        (childName used suffixes (componentText key.data)).2 = .ok tail ∧
      children = ((childName used suffixes (componentText key.data)).1, node) :: tail := by
  unfold parseChildren at h
  split at h
  · cases h
  rename_i hsafe
  rw [Bool.not_eq_true, Bool.not_eq_false'] at hsafe
  dsimp only at h
  split at h
  · cases h
  rename_i node hnode
  split at h
  · cases h
  · rename_i tail htail
    cases h
    exact ⟨isSafeComponent_iff.mp hsafe, node, tail, hnode, htail, rfl⟩

mutual

theorem namesSafe_parseFileTree : ∀ (v : Value) {node : FileTreeNode}, parseFileTree platform v = .ok node → node.NamesSafe platform
  | .dict dict, node, h => by
    rcases parseFileTree_dict h with ⟨key, leaf, -, -, hleaf⟩ | ⟨-, children, hchildren, rfl⟩
    · obtain ⟨length, root, executable, -, rfl, -⟩ := parseLeaf_ok hleaf
      exact trivial
    · exact allNamesSafe_parseChildren dict hchildren

theorem allNamesSafe_parseChildren : ∀ (dict : List (ByteVec × Value)) {used : List Text} {suffixes : Text → ℕ}
    {children : List (Text × FileTreeNode)}, parseChildren platform dict used suffixes = .ok children →
    FileTreeNode.AllNamesSafe platform children
  | [], used, suffixes, children, h => by
    cases h
    exact trivial
  | (key, child) :: rest, used, suffixes, children, h => by
    obtain ⟨hkey, node, tail, hnode, htail, rfl⟩ := parseChildren_cons h
    exact ⟨safe_childName hkey, namesSafe_parseFileTree child hnode, allNamesSafe_parseChildren rest htail⟩

end

theorem flattenChildren_cons {child : FileTreeNode} {rest : List (Text × FileTreeNode)} {path : List Text}
    {files : List TorrentMetaInfoV2} {empty : List (List Text)}
    (h : flattenChildren ((name, child) :: rest) path = .ok (files, empty)) :
    ∃ f e fs es, flattenFileTree child (path ++ [name]) = .ok (f, e) ∧ flattenChildren rest path = .ok (fs, es) ∧
      files = f ++ fs ∧ empty = e ++ es := by
  unfold flattenChildren at h
  split at h
  · cases h
  rename_i f e hchild
  split at h
  · cases h
  · rename_i fs es hrest
    cases h
    exact ⟨f, e, fs, es, hchild, hrest, rfl, rfl⟩

/-- What a file node is flattened to. -/
theorem flattenFileTree_file {length : ℕ} {root : Option Id32} {executable : Bool} {path : List Text}
    {files : List TorrentMetaInfoV2} {empty : List (List Text)}
    (h : flattenFileTree (.file length root executable) path = .ok (files, empty)) :
    (length = 0 ∧ files = [] ∧ empty = [path]) ∨ (0 < length ∧ empty = [] ∧ ∃ r, files = [⟨path, length, r, executable⟩]) := by
  unfold flattenFileTree at h
  split at h
  · rename_i hz
    cases h
    exact Or.inl ⟨hz, rfl, rfl⟩
  · rename_i hz
    split at h
    · cases h
    · cases h
      exact Or.inr ⟨Nat.pos_of_ne_zero hz, rfl, _, rfl⟩

mutual

theorem safe_flattenFileTree : ∀ (node : FileTreeNode) {path : List Text} {files : List TorrentMetaInfoV2}
    {empty : List (List Text)}, node.NamesSafe platform → SafePath platform path → flattenFileTree node path = .ok (files, empty) →
    (∀ f ∈ files, SafePath platform f.path) ∧ ∀ p ∈ empty, SafePath platform p
  | .dir children, path, files, empty, hs, hp, h => safe_flattenChildren children hs hp.2 h
  | .file length root executable, path, files, empty, _, hp, h => by
    rcases flattenFileTree_file h with ⟨-, rfl, rfl⟩ | ⟨-, rfl, r, rfl⟩
    · exact ⟨fun f hf => absurd hf List.not_mem_nil, fun p hm => List.mem_singleton.mp hm ▸ hp⟩
    · exact ⟨fun f hf => List.mem_singleton.mp hf ▸ hp, fun p hm => absurd hm List.not_mem_nil⟩

theorem safe_flattenChildren : ∀ (children : List (Text × FileTreeNode)) {path : List Text} {files : List TorrentMetaInfoV2}
    {empty : List (List Text)}, FileTreeNode.AllNamesSafe platform children → (∀ c ∈ path, SafeComponent platform c) →
    flattenChildren children path = .ok (files, empty) →
    (∀ f ∈ files, SafePath platform f.path) ∧ ∀ p ∈ empty, SafePath platform p
  | [], path, files, empty, _, _, h => by
    cases h
    exact ⟨fun f hf => absurd hf List.not_mem_nil, fun p hm => absurd hm List.not_mem_nil⟩
  | (name, child) :: rest, path, files, empty, hs, hp, h => by
    obtain ⟨hname, hchild, hrest⟩ := hs
    obtain ⟨f, e, fs, es, hf, hfs, rfl, rfl⟩ := flattenChildren_cons h
    obtain ⟨h1, h2⟩ := safe_flattenFileTree child hchild (SafePath.append hp hname) hf
    obtain ⟨h3, h4⟩ := safe_flattenChildren rest hrest hp hfs
    exact ⟨List.forall_mem_append.mpr ⟨h1, h3⟩, List.forall_mem_append.mpr ⟨h2, h4⟩⟩

end

/-- What `validate_info_v2` has checked. -/
theorem validateInfoV2_ok {v2 : ValidatedTorrentMetaV2Info} (h : validateInfoV2 platform value = .ok v2) :
    parsePieceLength value .badInfoV2 = .ok v2.pieceLength ∧ 16 * 1024 ≤ v2.pieceLength.toNat ∧
      isPowerOfTwo v2.pieceLength.toNat = true ∧
      ∃ tree children n total, value.get "file tree" = some tree ∧ parseFileTree platform tree = .ok (.dir children) ∧
        flattenChildren children [] = .ok (v2.files, v2.emptyFiles) ∧
        checkedSum (v2.files.map TorrentMetaInfoV2.length) = some total ∧ total ≠ 0 ∧
        checkPieceCount total v2.pieceLength = .ok () ∧
        v2AlignedPieceCount v2.files v2.pieceLength = some n ∧ n ≤ maxPieces := by
  unfold validateInfoV2 at h
  split at h
  · cases h
  split at h
  · cases h
  split at h
  · cases h
  split at h
  · cases h
  rename_i pieceLength hlength
  split at h
  · cases h
  rename_i hpow
  simp only [Bool.or_eq_true, decide_eq_true_eq, Bool.not_eq_true', not_or, Bool.not_eq_false, not_lt] at hpow
  split at h
  · cases h
  split at h
  · cases h
  split at h
  · cases h
  rename_i tree htree
  unfold validateFileTree at h
  split at h
  · cases h
  · cases h
  · rename_i node hnotfile hnode
    split at h
    · cases h
    rename_i files emptyFiles hflat
    split at h
    · cases h
    split at h
    · cases h
    rename_i total htotal
    split at h
    · cases h
    rename_i hzero
    split at h
    · cases h
    rename_i hcount
    split at h
    · cases h
    · rename_i hpieces
      cases h
      cases node with
      | file length root executable => exact (hnotfile _ _ _ rfl).elim
      | dir children =>
        cases hn : v2AlignedPieceCount files pieceLength with
        | none =>
          rw [hn] at hpieces
          exact absurd rfl hpieces
        | some n =>
          rw [hn] at hpieces
          simp only [Option.all_some, decide_eq_true_eq, not_lt] at hpieces
          exact ⟨hlength, hpow.1, hpow.2, tree, children, n, total, htree, hnode, hflat, htotal, hzero,
            hcount, rfl, hpieces⟩

/-! ## The file list -/

theorem safe_facadeFiles {pieceLength : UInt32} {files : List TorrentMetaInfoV2} (hs : ∀ f ∈ files, SafePath platform f.path)
    (offset : ℕ) : ∀ f ∈ facadeFiles pieceLength files offset, SafePath platform f.path := by
  induction files generalizing offset with
  | nil => exact fun f hf => absurd hf List.not_mem_nil
  | cons file rest ih =>
    obtain ⟨hfile, hrest⟩ := List.forall_mem_cons.mp hs
    unfold facadeFiles
    dsimp only
    split
    · refine List.forall_mem_cons.mpr ⟨⟨by simp, fun c hc => ?_⟩, List.forall_mem_cons.mpr ⟨hfile, ih hrest _⟩⟩
      rw [List.mem_pair] at hc
      rcases hc with rfl | rfl
      · exact safe_pad
      · exact safe_showNat _
    · exact List.forall_mem_cons.mpr ⟨hfile, ih hrest _⟩

/-- Renaming changes paths, and nothing else. -/
theorem dedupeFileList_some {files' : List TorrentMetaInfo} (hs : ∀ f ∈ files, SafePath platform f.path)
    (h : dedupeFileList platform fuel files = some files') :
    (∀ f ∈ files', SafePath platform f.path) ∧ files'.map TorrentMetaInfo.length = files.map TorrentMetaInfo.length ∧
      files'.map TorrentMetaInfo.padding = files.map TorrentMetaInfo.padding := by
  unfold dedupeFileList at h
  obtain ⟨paths, hpaths, rfl⟩ := Option.map_eq_some_iff.mp h
  have hin : ∀ path ∈ files.map TorrentMetaInfo.path, SafePath platform path := by
    intro path hp
    obtain ⟨f, hf, rfl⟩ := List.mem_map.mp hp
    exact hs f hf
  obtain ⟨hlen, hsafe⟩ := safe_dedupePaths hin hpaths
  rw [List.length_map] at hlen
  refine ⟨fun f hf => ?_, ?_, ?_⟩
  · obtain ⟨e, he, rfl⟩ := List.mem_map.mp hf
    exact hsafe _ (List.of_mem_zip he).2
  · rw [List.map_map]
    exact (List.map_map (l := files.zip paths) (f := Prod.fst) (g := TorrentMetaInfo.length)).symm.trans
      (by rw [List.map_fst_zip hlen.ge])
  · rw [List.map_map]
    exact (List.map_map (l := files.zip paths) (f := Prod.fst) (g := TorrentMetaInfo.padding)).symm.trans
      (by rw [List.map_fst_zip hlen.ge])

/-! ## The parser -/

/-- An accepted torrent: without a v1 part its list is made of the files of the tree, and else the list of the info dictionary, each
with names of their own; the list of a hybrid torrent agrees with its tree. -/
inductive Accepted (platform : Platform) (fuel : ℕ) (torrent : TorrentMeta) : Prop where
  | v2 (infoValue : Value) (v2 : ValidatedTorrentMetaV2Info) (hv2 : validateInfoV2 platform infoValue = .ok v2)
      (hversion : torrent.metaVersion = .v2) (hinfoV2 : torrent.infoV2 = some v2)
      (hinfo : synthesizeV1FacadeFromV2 platform fuel v2 = some torrent.info)
  | v1 (infoValue : Value) (info : ValidatedTorrentMetaV1Info) (hv1 : validateInfoUndeduped platform infoValue = .ok info)
      (hversion : torrent.metaVersion ≠ .v2) (hlength : torrent.info.pieceLength = info.pieceLength)
      (hfiles : dedupeFileList platform fuel info.files = some torrent.info.files)
      (hybrid : ∀ v2, torrent.infoV2 = some v2 → validateInfoV2 platform infoValue = .ok v2 ∧ checkHybridLayout info infoValue v2 = .ok ())

theorem accepted_finishV1 {infoValue : Value} {infoRaw : List UInt8} {info : ValidatedTorrentMetaV1Info}
    {infoV2 : Option ValidatedTorrentMetaV2Info} (hv1 : validateInfoUndeduped platform infoValue = .ok info)
    (hybrid : ∀ v2, infoV2 = some v2 → validateInfoV2 platform infoValue = .ok v2 ∧ checkHybridLayout info infoValue v2 = .ok ())
    (h : finishV1 platform fuel value infoRaw info infoV2 = some (.ok torrent)) : Accepted platform fuel torrent := by
  unfold finishV1 at h
  obtain ⟨files, hfiles, heq⟩ := Option.map_eq_some_iff.mp h
  dsimp only at heq
  split at heq
  · cases heq
    exact .v1 infoValue info hv1 (fun e => by cases e) rfl hfiles hybrid
  · split at heq
    · cases heq
    · cases heq
      exact .v1 infoValue info hv1 (fun e => by cases e) rfl hfiles hybrid

theorem accepted_of_parseTorrent {bytes : List UInt8}
    (h : parseTorrent platform fuel bytes = some (.ok torrent)) : Accepted platform fuel torrent := by
  unfold parseTorrent at h
  split at h
  · cases h
  split at h
  · cases h
  split at h
  · rename_i infoRaw infoValue _ _
    split at h
    · cases h
    split at h
    · cases h
    split at h
    · cases h
    · unfold parseV2Torrent at h
      split at h
      · cases h
      rename_i v2 hv2
      split at h
      · cases h
      obtain ⟨info, hinfo, heq⟩ := Option.map_eq_some_iff.mp h
      split at heq
      · cases heq
      · cases heq
        exact .v2 infoValue v2 hv2 rfl rfl hinfo
    · unfold parseV1Torrent at h
      split at h
      · cases h
      rename_i info hv1
      split at h
      · split at h
        · cases h
        rename_i v2 hhybrid
        unfold parseHybridInfo at hhybrid
        split at hhybrid
        · cases hhybrid
        rename_i hv2
        split at hhybrid
        · cases hhybrid
        · rename_i hlayout
          cases hhybrid
          exact accepted_finishV1 hv1 (fun v2 heq => Option.some.inj heq ▸ ⟨hv2, hlayout⟩) h
      · exact accepted_finishV1 hv1 (fun v2 heq => absurd heq (by simp)) h
  · cases h

/-- The list of a v2 torrent, before its paths get names of their own. -/
theorem safe_facade {infoValue : Value} {v2 : ValidatedTorrentMetaV2Info} (h : validateInfoV2 platform infoValue = .ok v2) :
    ∀ f ∈ facadeFiles v2.pieceLength v2.files 0 ++ v2.emptyFiles.map (fun path => ⟨path, 0, false, false⟩),
      SafePath platform f.path := by
  obtain ⟨-, -, -, tree, children, n, total, -, hparse, hflat, -⟩ := validateInfoV2_ok h
  obtain ⟨hfiles, hempty⟩ := safe_flattenChildren children (namesSafe_parseFileTree tree hparse)
    (fun c hc => absurd hc List.not_mem_nil) hflat
  refine List.forall_mem_append.mpr ⟨safe_facadeFiles hfiles 0, fun f hf => ?_⟩
  obtain ⟨path, hp, rfl⟩ := List.mem_map.mp hf
  exact hempty path hp

/-- The paths of an accepted torrent are safe. -/
theorem Accepted.safe (h : Accepted platform fuel torrent) :
    ∀ f ∈ torrent.info.files, SafePath platform f.path := by
  cases h with
  | v2 infoValue v2 hv2 hversion hinfoV2 hinfo =>
    unfold synthesizeV1FacadeFromV2 at hinfo
    obtain ⟨files, hdedupe, heq⟩ := Option.map_eq_some_iff.mp hinfo
    rw [← heq]
    exact (dedupeFileList_some (safe_facade hv2) hdedupe).1
  | v1 infoValue info hv1 hversion hlength hfiles hybrid =>
    exact (dedupeFileList_some (validateInfoUndeduped_ok hv1).2.1 hfiles).1

/-! ## Paths on disk -/

/-- Safe components do not take the place of the path they are pushed on. -/
theorem pushComponent_safe {c : Text} (h : SafeComponent platform c) (path : List Text) : pushComponent platform path c = path ++ [c] := by
  unfold pushComponent
  have hhead : ∀ x, x ∉ c → c.head? ≠ some x := fun x hx hhead => hx (List.mem_of_mem_head? hhead)
  rw [if_neg]
  simp only [Bool.or_eq_true, Bool.and_eq_true, decide_eq_true_eq, not_or, not_and]
  refine ⟨hhead _ h.no_slash, fun hw => ⟨hhead _ h.no_backslash, ?_⟩⟩
  rw [h.no_drive hw]
  exact Bool.false_ne_true

/-- A file lies under the root, at the components of its path as they are on disk. -/
theorem diskPath_eq {f : TorrentMetaInfo} (h : ∀ c ∈ f.path, SafeComponent platform c) (root : List Text) :
    diskPath platform root f = root ++ f.path.map (fsComponent platform) := by
  unfold diskPath
  generalize f.path = path at h
  induction path generalizing root with
  | nil => exact (List.append_nil root).symm
  | cons c rest ih =>
    obtain ⟨hc, hrest⟩ := List.forall_mem_cons.mp h
    rw [List.foldl_cons, pushComponent_safe (safe_fsComponent hc), ih _ hrest, List.append_assoc]
    rfl

end Metainfo

end Risuko
