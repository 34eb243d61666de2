import Risuko.Lemmas.Matrix
import Risuko.Lemmas.Packets
import Risuko.Lemmas.Promotion

/-!
# Parity files

The decode matrix of a repair is inverted exactly when it can be. The two scans of a parity file agree, but not on the largest slices.
Repaired files take their places all or not at all, up to backups that stay.
-/

namespace Risuko

namespace Usenet

namespace GfMatrix

variable {mul : UInt16 → UInt16 → UInt16} {inv : UInt16 → UInt16} {K : Type*} [Field K]

/-! ## Decode matrices -/

/-- Without a cancel, a square matrix that has an inverse is inverted, on both sides, and any other is found to be singular. -/
theorem invert_matrix_exact (g : GfField mul inv K) (m : GfMatrix) (hsquare : m.rows = m.cols) :
    (IsUnit (toMatrix g m.rows m) → ∃ N, invertMatrixWithCancel mul inv m (fun _ => false) = .ok N ∧
      toMatrix g m.rows N * toMatrix g m.rows m = 1 ∧ toMatrix g m.rows m * toMatrix g m.rows N = 1) ∧
    (invertMatrixWithCancel mul inv m (fun _ => false) = .error (.repair "Decode matrix is singular") ↔ ¬ IsUnit (toMatrix g m.rows m)) := by
  have hstart : Reduced g (toMatrix g m.rows m) 0 (augment m) := reduced_augment m
  unfold invertMatrixWithCancel
  rw [if_neg (not_not.mpr hsquare)]
  dsimp only
  rcases hstart.columns le_rfl with ⟨a, heq, hreduced⟩ | ⟨heq, hsingular⟩
  · rw [heq]
    obtain ⟨hleft, hright⟩ := hreduced.follows.inverse hreduced.unit
    have hresult : toMatrix g m.rows ((List.range m.rows).foldl (fun inverse row =>
        (List.range m.rows).foldl (fun inverse column => inverse.set row column (a.get row (m.rows + column))) inverse) (zeros m.rows m.rows)) =
        beside g m.rows a := by
      ext i j
      simp only [toMatrix, beside, Matrix.of_apply, get_inverse, i.isLt, j.isLt, and_self, if_true]
    refine ⟨fun _ => ⟨_, rfl, ?_⟩, iff_of_false (by rintro ⟨⟩) (not_not.mpr ?_)⟩
    · rw [hresult]
      exact ⟨hleft, hright⟩
    · exact IsUnit.of_mul_eq_one _ hright
  · rw [heq]
    exact ⟨fun hunit => absurd hunit hsingular, iff_of_true rfl hsingular⟩

/-- Two rows that have to change places. -/
def swapped : GfMatrix := ⟨2, 2, fun i j => if i = j then 0 else 1⟩

/-- A matrix whose first pivot is zero is inverted after a swap of rows. -/
theorem invert_matrix_exact_swapped : ∃ N, invertMatrixWithCancel wordMul wordInv swapped (fun _ => false) = .ok N ∧
    toMatrix wordField 2 N * toMatrix wordField 2 swapped = 1 ∧ toMatrix wordField 2 swapped * toMatrix wordField 2 N = 1 := by
  refine (invert_matrix_exact wordField swapped rfl).1 ?_
  have hsquare : toMatrix wordField 2 swapped * toMatrix wordField 2 swapped = 1 := by
    ext i j
    fin_cases i <;> fin_cases j <;>
      simp [Matrix.mul_apply, toMatrix, swapped, Fin.sum_univ_two, wordField.val_zero, wordField.val_one]
  exact IsUnit.of_mul_eq_one _ hsquare

end GfMatrix

/-! ## Packets -/

/-- A row of packets of a set, within the limits, is accepted with every packet counted once, unless it is empty, has slices so large that the four
bytes of their exponents exceed the limit of a packet, or lists files outside the recovery set. The index has the exponents of the recovery packets in
any case, and looks for packets at the places where the check does. -/
theorem packet_checks_agree (md5 : List UInt8 → List UInt8) (hmd5 : ∀ x, (md5 x).length = 16) (android : Bool) (setId : List UInt8) (sliceSize : ℕ)
    (hslice : sliceSizeAccepted sliceSize = true) :
    (∀ files : List (List Packet), (∀ packets ∈ files, ∀ p ∈ packets, p.WellFormed sliceSize ∧ p.setId = setId) →
      (∀ packets ∈ files, (countAll packets .zero).Within (metadataMemoryLimit android)) →
      (((∀ packets ∈ files, ∀ path, ∃ starts,
            validatePar2Packets md5 path (metadataMemoryLimit android) (encodeAll md5 packets) = .ok (countAll packets .zero, starts)) ∧
          ∃ index, indexRecoveryPackets setId sliceSize (files.map (encodeAll md5)) = .ok index ∧ index.Exact (SliceAt md5 files)) ↔
        ∀ packets ∈ files, packets ≠ [] ∧ ∀ p ∈ packets, p.Checked sliceSize)) ∧
    ∀ file path stats starts, validatePar2Packets md5 path (metadataMemoryLimit android) file = .ok (stats, starts) →
      ∀ pathIndex index, ∃ index', indexFile setId sliceSize pathIndex file index = .ok (index', starts) := by
  have hlimit : metadataMemoryLimit android < 2 ^ 64 := by
    cases android <;> decide
  have hle := le_of_sliceSizeAccepted hslice
  constructor
  · intro files hwf hwithin
    constructor
    · rintro ⟨haccepted, -⟩ packets hmem
      obtain ⟨starts, hok⟩ := haccepted packets hmem ""
      unfold validatePar2Packets at hok
      split at hok
      · cases hok
      · rename_i hlong
        refine ⟨?_, checked_of_validateLoop (fun p hp => (hwf packets hmem p hp).1) hmd5 hok⟩
        rintro rfl
        exact hlong (by rw [encodeAll, List.flatMap_nil]; decide)
    · intro hfits
      refine ⟨fun packets hmem path => ?_, ?_⟩
      · obtain ⟨hne, hchecked⟩ := hfits packets hmem
        have hlong : ¬ (encodeAll md5 packets).length < par2HeaderBytes := by
          obtain ⟨p, rest, rfl⟩ := List.exists_cons_of_ne_nil hne
          have hencode : encodeAll md5 (p :: rest) = p.encode md5 ++ encodeAll md5 rest := rfl
          rw [hencode, List.length_append, Packet.length_encode (hwf _ hmem p List.mem_cons_self).1.sized hmd5, Packet.length]
          omega
        unfold validatePar2Packets
        rw [if_neg hlong]
        exact validateLoop_all (fun p hp => (hwf packets hmem p hp).1) hmd5 hlimit hchecked
          (fun p hp => (hwf packets hmem p hp).2) (by rintro _ ⟨⟩) le_rfl (hwithin packets hmem)
      · exact indexRecoveryPackets_all hwf hmd5 fun packets hmem =>
          encodeAll_small (fun p hp => (hwf packets hmem p hp).1) hmd5 hle (hwithin packets hmem)
  · intro file path stats starts hok pathIndex index
    unfold validatePar2Packets at hok
    split at hok
    · cases hok
    · have hbytes := length_of_validateLoop hok
      have hsmall : file.length < 2 ^ 63 := hbytes.trans_lt (by decide)
      exact indexLoop_of_validateLoop hok (Nat.zero_add _).symm hsmall

/-- A recovery packet of set 0 for exponent 0. -/
def recoveryPacket (slice : List UInt8) : Packet := ⟨List.replicate 16 0, par2TypeRecovery, [0, 0, 0, 0] ++ slice⟩

/-- A recovery packet of a slice is of the format. -/
theorem wellFormed_recoveryPacket {slice : List UInt8} {sliceSize : ℕ} (h : slice.length = sliceSize) (hmod : sliceSize % 4 = 0)
    (hsmall : sliceSize < 2 ^ 63) : (recoveryPacket slice).WellFormed sliceSize := by
  have hbody : (recoveryPacket slice).body.length = 4 + sliceSize := by
    rw [← h, Nat.add_comm]
    rfl
  have hlength : (recoveryPacket slice).length = 64 + (4 + sliceSize) := by
    rw [Packet.length, hbody]
    rfl
  have hkindLength : par2TypeRecovery.length = 16 := by
    decide
  have hdesc : par2TypeRecovery ≠ par2TypeFileDesc := by
    decide
  have hifsc : par2TypeRecovery ≠ par2TypeIfsc := by
    decide
  have hmain : par2TypeRecovery ≠ par2TypeMain := by
    decide
  exact ⟨⟨List.length_replicate .., hkindLength, by omega⟩, by omega, fun _ => hbody, fun hkind => absurd rfl hkind,
    fun hkind => absurd hkind hdesc, fun hkind => absurd hkind hifsc, fun hkind => absurd hkind hmain⟩

theorem within_recoveryPacket (slice : List UInt8) (android : Bool) :
    (countAll [recoveryPacket slice] .zero).Within (metadataMemoryLimit android) := by
  have hcount : countAll [recoveryPacket slice] .zero = ⟨1, 1, 0, 0, 0⟩ := rfl
  rw [hcount]
  cases android <;> exact ⟨by decide, by decide, by decide, by decide, by decide⟩

/-- The packet of four bytes. -/
def smallSlice : List UInt8 := [1, 2, 3, 4]

/-- Its MD5. -/
def smallDigest : List UInt8 := [27, 24, 77, 56, 63, 232, 215, 193, 46, 46, 126, 196, 131, 93, 144, 94]

/-- One recovery packet passes both checks with the same counts. -/
theorem packet_checks_agree_small :
    (∀ path, ∃ starts, validatePar2Packets (fun _ => smallDigest) path (metadataMemoryLimit false)
        (encodeAll (fun _ => smallDigest) [recoveryPacket smallSlice]) =
      .ok (countAll [recoveryPacket smallSlice] .zero, starts)) ∧
    ∃ index, indexRecoveryPackets (List.replicate 16 0) 4 [encodeAll (fun _ => smallDigest) [recoveryPacket smallSlice]] = .ok index ∧
      index.Exact (SliceAt (fun _ => smallDigest) [[recoveryPacket smallSlice]]) := by
  have hall := (packet_checks_agree (fun _ => smallDigest) (fun _ => rfl) false (List.replicate 16 0) 4 (by decide)).1 [[recoveryPacket smallSlice]]
    (List.forall_mem_singleton.mpr (List.forall_mem_singleton.mpr ⟨wellFormed_recoveryPacket rfl rfl (by decide), rfl⟩))
    (List.forall_mem_singleton.mpr (within_recoveryPacket smallSlice false))
  have hfits := hall.mpr (List.forall_mem_singleton.mpr ⟨List.cons_ne_nil _ _, List.forall_mem_singleton.mpr ⟨fun _ => by decide, by decide⟩⟩)
  exact ⟨hfits.1 _ (List.mem_singleton.mpr rfl), hfits.2⟩

/-- The largest slice. -/
def largestSlice : List UInt8 := List.replicate maxPar2SliceBytes 0

/-- The MD5 of its packet. -/
def largestDigest : List UInt8 := [201, 246, 164, 243, 37, 83, 208, 100, 103, 174, 41, 60, 21, 13, 254, 92]

/-- A main packet of set 0 that lists one file outside the recovery set. -/
def otherFile : Packet := ⟨List.replicate 16 0, par2TypeMain, [4, 0, 0, 0, 0, 0, 0, 0, 0, 0, 0, 0] ++ List.replicate 16 7⟩

def otherDigest : List UInt8 := [86, 83, 191, 111, 82, 5, 177, 34, 117, 0, 140, 27, 74, 49, 24, 7]

/-- A slice of 64 MiB, which a set may have, with its exponent exceeds the limit of a packet. A main packet that lists a file outside the recovery
set is refused. -/
theorem packet_checks_differ :
    (sliceSizeAccepted maxPar2SliceBytes = true ∧ maxPar2SliceBytes % 4 = 0 ∧
      (recoveryPacket largestSlice).WellFormed maxPar2SliceBytes ∧ (countAll [recoveryPacket largestSlice] .zero).Within (metadataMemoryLimit false) ∧
      ∀ result, validatePar2Packets (fun _ => largestDigest) "a.par2" (metadataMemoryLimit false)
        (encodeAll (fun _ => largestDigest) [recoveryPacket largestSlice]) ≠ .ok result) ∧
    otherFile.WellFormed 4 ∧ (countAll [otherFile] .zero).Within (metadataMemoryLimit false) ∧
      ∀ result, validatePar2Packets (fun _ => otherDigest) "a.par2" (metadataMemoryLimit false) (encodeAll (fun _ => otherDigest) [otherFile]) ≠
        .ok result := by
  have hwf : (recoveryPacket largestSlice).WellFormed maxPar2SliceBytes := wellFormed_recoveryPacket (List.length_replicate ..) (by decide) (by decide)
  have hother : otherFile.WellFormed 4 :=
    ⟨⟨by decide, by decide, by decide⟩, by decide, by decide, by decide, by decide, by decide, by decide⟩
  refine ⟨⟨by decide, by decide, hwf, within_recoveryPacket largestSlice false, fun result hok => ?_⟩, hother,
    ⟨by decide, by decide, by decide, by decide, by decide⟩, fun result hok => ?_⟩
  · unfold validatePar2Packets at hok
    split at hok
    · cases hok
    · have hchecked := checked_of_validateLoop (List.forall_mem_singleton.mpr hwf) (fun _ => rfl) hok _ (List.mem_singleton.mpr rfl)
      exact absurd (hchecked.slice rfl) (by decide)
  · unfold validatePar2Packets at hok
    split at hok
    · cases hok
    · have hchecked := checked_of_validateLoop (List.forall_mem_singleton.mpr hother) (fun _ => rfl) hok _ (List.mem_singleton.mpr rfl)
      exact absurd (hchecked.order rfl) (by decide)

/-! ## Promotion -/

section Promotion

/-- With outputs, staged files and backups at paths of their own, no output that is a link that leads nowhere, and no look at a path that fails: when
an error is returned, nothing has changed but directories that were made. When the outputs are returned, each of them holds its staged file, and apart
from them and the stage nothing has changed but backups that could not be removed. -/
theorem promote_outputs_all_or_nothing {Path Content : Type} [DecidableEq Path] (s : Surroundings Path) (stage : String → Path) (names : Finset String)
    (dataByName : String → Option (Par2InputFile Path)) (fs : FileSystem Path Content) (h : Places s stage names dataByName fs)
    (hlinks : ∀ n ∈ names, ∀ i ∈ dataByName n, ∀ target, fs.nodes i.outputPath ≠ some (.link target false)) (hundone : ∀ k, s.undone k = true)
    (hlooked : ∀ k path, s.looked k path = true) :
    (∀ e, (promoteOutputs s stage names dataByName fs).1 = .error e →
      (∀ n ∈ names, (promoteOutputs s stage names dataByName fs).2.1.nodes (stage n) = fs.nodes (stage n) ∧
        ∀ i ∈ dataByName n, (promoteOutputs s stage names dataByName fs).2.1.nodes i.outputPath = fs.nodes i.outputPath) ∧
      ∀ path, ¬ MadeFor s names dataByName path → (promoteOutputs s stage names dataByName fs).2.1.nodes path = fs.nodes path) ∧
    ∀ outputs, (promoteOutputs s stage names dataByName fs).1 = .ok outputs →
      (outputs.map some = names.sort.map fun n => (dataByName n).map (·.outputPath)) ∧
      (∀ n ∈ names, ∃ i ∈ dataByName n, ∃ content, fs.nodes (stage n) = some (.file content) ∧
        (promoteOutputs s stage names dataByName fs).2.1.nodes i.outputPath = some (.file content)) ∧
      (∀ path, ¬ MadeFor s names dataByName path → (∀ n ∈ names, path ≠ stage n ∧ ∀ i ∈ dataByName n, path ≠ i.outputPath) →
        path ∉ (promoteOutputs s stage names dataByName fs).2.2 → (promoteOutputs s stage names dataByName fs).2.1.nodes path = fs.nodes path) ∧
      (∀ path ∈ (promoteOutputs s stage names dataByName fs).2.2, ∃ k destination, path = s.backup k destination) ∧
      ((∀ k, s.removed k = true) → (promoteOutputs s stage names dataByName fs).2.2 = []) := by
  have hnames : ∀ n ∈ [] ++ names.sort, n ∈ names := by
    intro n hn
    rw [List.nil_append] at hn
    exact (Finset.mem_sort _).mp hn
  have hnodup : ([] ++ names.sort).Nodup := by
    rw [List.nil_append]
    exact Finset.sort_nodup _ _
  have hloop := promoteLoop_cases h hlinks ⟨hundone, hlooked⟩ hnames hnodup promoted_nil
  rw [List.nil_append] at hloop
  obtain ⟨result, fs', hrun⟩ : ∃ result fs', promoteLoop s stage dataByName (names.sort (· ≤ ·)) [] fs = (result, fs') := ⟨_, _, rfl⟩
  unfold promoteOutputs
  rw [hrun] at hloop ⊢
  rcases hloop with ⟨e, rfl, hsame⟩ | ⟨promotions, rfl, hpromoted⟩
  · refine ⟨fun _ _ => ⟨fun n hn => ⟨?_, fun i hi => ?_⟩, hsame⟩, nofun⟩
    · exact hsame _ (h.clear_stage hn)
    · exact hsame _ (h.clear_output hn hi)
  · have hstart : Cleared s fs' [] (fs', []) := ⟨fun _ _ => rfl, nofun, nofun, fun _ => rfl⟩
    have hcleared : Cleared s fs' promotions (promotions.foldl (removeBackup s) (fs', [])) := hstart.foldl
    have hbackups : ∀ path, (∃ promotion ∈ promotions, promotion.backup = some path) → ∃ k destination, path = s.backup k destination := by
      rintro path ⟨promotion, hmem, hbackup⟩
      obtain ⟨k, -, destination, heq⟩ := hpromoted.backups promotion hmem path hbackup
      exact ⟨k, destination, heq⟩
    refine ⟨nofun, fun outputs houtputs => ⟨?_, ?_, ?_, fun path hleft => hbackups path (hcleared.left path hleft), hcleared.all⟩⟩
    · obtain rfl := Except.ok.inj houtputs
      rw [List.map_map]
      exact hpromoted.destinations
    · intro n hn
      obtain ⟨i, hi, content, hstaged, houtput, -⟩ := hpromoted.placed n ((Finset.mem_sort _).mpr hn)
      refine ⟨i, hi, content, hstaged, ?_⟩
      rw [← houtput]
      refine hcleared.kept _ fun promotion hmem hbackup => ?_
      obtain ⟨k, destination, heq⟩ := hbackups _ ⟨promotion, hmem, hbackup⟩
      exact h.backup_output k destination n hn i hi heq.symm
    · intro path hclear hpath hleft
      by_cases hbackup : ∃ promotion ∈ promotions, promotion.backup = some path
      · obtain ⟨k, destination, rfl⟩ := hbackups path hbackup
        rw [h.fresh k destination]
        exact hcleared.gone _ hleft hbackup
      · push Not at hbackup
        rw [← hpromoted.same path hclear (fun n hn => hpath n ((Finset.mem_sort _).mp hn)) hbackup]
        exact hcleared.kept path hbackup

/-- A staged file 1 that takes the place of its source 2. The backup is a path from 100 on, and can be removed or not. -/
def replacing (removed : Bool) : Surroundings ℕ where
  cancelled := fun _ => false
  inspected := fun _ => true
  looked := fun _ _ => true
  created := fun _ => true
  made := fun _ => []
  renamed := fun _ => true
  undone := fun _ => true
  removed := fun _ => removed
  ancestors := fun _ => [0]
  backup := fun k _ => 100 + k
  display := toString

def replaced : FileSystem ℕ ℕ := ⟨fun path => if path = 1 then some (.file 10) else if path = 2 then some (.file 20) else none, 0⟩

def replacedInput : String → Option (Par2InputFile ℕ) := fun _ => some ⟨2, 2⟩

theorem places_replacing (removed : Bool) : Places (replacing removed) (fun _ => 1) {"a"} replacedInput replaced where
  staged := by simp
  outputs := by simp
  apart := by simp [replacedInput]
  fresh := by
    intro k p
    have h1 : 100 + k ≠ 1 := by omega
    have h2 : 100 + k ≠ 2 := by omega
    simp [replaced, replacing, h1, h2]
  backups := by
    intro k p k' p' heq
    simpa [replacing] using heq
  backup_staged := by
    intro k p n hn
    simp only [replacing]
    omega
  backup_output := by
    intro k p n hn i hi
    obtain rfl := Option.some.inj hi
    simp only [replacing]
    omega
  directory_staged := by simp [replacing]
  directory_output := by simp [replacing, replacedInput]
  directory_backup := by simp [replacing]

/-- The promotion ends with `Ok`, and the backup is left only when it cannot be removed. -/
theorem promoteOutputs_replacing (removed : Bool) :
    (promoteOutputs (replacing removed) (fun _ => 1) {"a"} replacedInput replaced).1 = .ok [2] ∧
      (promoteOutputs (replacing removed) (fun _ => 1) {"a"} replacedInput replaced).2.2 = if removed then [] else [101] := by
  unfold promoteOutputs
  rw [Finset.sort_singleton]
  cases removed <;> exact ⟨rfl, rfl⟩

/-- The staged content is at the output path. -/
theorem promote_outputs_all_or_nothing_replacing :
    ∃ i ∈ replacedInput "a", ∃ content, replaced.nodes 1 = some (.file content) ∧
      (promoteOutputs (replacing true) (fun _ => 1) {"a"} replacedInput replaced).2.1.nodes i.outputPath = some (.file content) := by
  have hlinks : ∀ n ∈ ({"a"} : Finset String), ∀ i ∈ replacedInput n, ∀ target, replaced.nodes i.outputPath ≠ some (.link target false) := by
    intro n hn i hi target
    obtain rfl := Option.some.inj hi
    nofun
  have hall := (promote_outputs_all_or_nothing (replacing true) (fun _ => 1) {"a"} replacedInput replaced (places_replacing true) hlinks
      (fun _ => rfl) fun _ _ => rfl).2
    [2] (promoteOutputs_replacing true).1
  exact hall.2.1 "a" (Finset.mem_singleton_self _)

/-- A run that is cancelled after its last promotion, where the output is a link that leads nowhere. -/
def interrupted : Surroundings ℕ := { replacing true with cancelled := fun k => 0 < k }

def linked : FileSystem ℕ ℕ := ⟨fun path => if path = 1 then some (.file 10) else if path = 2 then some (.link 30 false) else none, 0⟩

/-- The same run, where the output is the source and no look succeeds. -/
def unseen : Surroundings ℕ := { interrupted with looked := fun _ _ => false }

/-- A backup that cannot be removed stays, although the outputs are returned. A link that leads nowhere is not put back, nor is an output that a
failed look hides. -/
theorem promote_outputs_leaves_backup :
    (Places (replacing false) (fun _ => 1) {"a"} replacedInput replaced ∧ (∀ k, (replacing false).undone k = true) ∧
      (∀ k path, (replacing false).looked k path = true) ∧
      (promoteOutputs (replacing false) (fun _ => 1) {"a"} replacedInput replaced).1 = .ok [2] ∧
      (promoteOutputs (replacing false) (fun _ => 1) {"a"} replacedInput replaced).2.1.nodes ((replacing false).backup 1 2) = some (.file 20)) ∧
    ((∀ k, interrupted.undone k = true) ∧ (promoteOutputs interrupted (fun _ => 1) {"a"} replacedInput linked).1 = .error .cancelled ∧
      (promoteOutputs interrupted (fun _ => 1) {"a"} replacedInput linked).2.1.nodes 2 ≠ linked.nodes 2) ∧
    (∀ k, unseen.undone k = true) ∧ (promoteOutputs unseen (fun _ => 1) {"a"} replacedInput replaced).1 = .error .cancelled ∧
      (promoteOutputs unseen (fun _ => 1) {"a"} replacedInput replaced).2.1.nodes 2 ≠ replaced.nodes 2 := by
  refine ⟨⟨places_replacing false, fun _ => rfl, fun _ _ => rfl, (promoteOutputs_replacing false).1, ?_⟩, ⟨fun _ => rfl, ?_⟩, fun _ => rfl, ?_⟩
  · unfold promoteOutputs
    rw [Finset.sort_singleton]
    rfl
  · unfold promoteOutputs
    rw [Finset.sort_singleton]
    exact ⟨rfl, by rintro ⟨⟩⟩
  · unfold promoteOutputs
    rw [Finset.sort_singleton]
    exact ⟨rfl, by decide⟩

end Promotion

end Usenet

end Risuko
