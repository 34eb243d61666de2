import Risuko.Usenet.Packets

/-!
# A promotion and its undoing

A rename is undone by the one back, as long as nothing was at its destination. The promotions of a run are undone one by one from the last, whatever
directories were made in between.
-/

namespace Risuko

namespace Usenet

variable {Path Content : Type} {s : Surroundings Path} {fs fs' : FileSystem Path Content}

/-! ## What exists -/

/-- Every rename that undoes another succeeds, and no look at a path fails. -/
structure Surroundings.Kind (s : Surroundings Path) : Prop where
  undone : ∀ k, s.undone k = true
  looked : ∀ k path, s.looked k path = true

namespace FileSystem

/-- What exists at a path is told by what is there, as long as looks succeed. -/
theorem pathExists_congr {path : Path} (hkind : s.Kind) (h : fs.nodes path = fs'.nodes path) : fs.pathExists s path = fs'.pathExists s path := by
  unfold pathExists
  rw [h, hkind.looked, hkind.looked]

/-- Where something exists is something. -/
theorem nodes_of_pathExists {path : Path} (h : fs.pathExists s path = true) : fs.nodes path ≠ none := by
  intro hnone
  unfold pathExists at h
  rw [hnone, Bool.and_false] at h
  cases h

/-- Where nothing exists is nothing, unless there is a link that leads nowhere. -/
theorem nodes_eq_none {path : Path} (hkind : s.Kind) (h : ¬ fs.pathExists s path = true)
    (hlink : ∀ target, fs.nodes path ≠ some (.link target false)) : fs.nodes path = none := by
  unfold pathExists at h
  rw [hkind.looked, Bool.true_and] at h
  split at h
  · assumption
  · rename_i target leads heq
    cases leads with
    | true => exact absurd rfl h
    | false => exact absurd heq (hlink target)
  · exact absurd rfl h

/-- A file exists. -/
theorem pathExists_file {path : Path} {content : Content} (hkind : s.Kind) (h : fs.nodes path = some (.file content)) :
    fs.pathExists s path = true := by
  unfold pathExists
  rw [h, hkind.looked]
  rfl

end FileSystem

/-- Two file systems that differ at most where directories may have been made. -/
def SameOff (made : Path → Prop) (fs fs' : FileSystem Path Content) : Prop := ∀ path, ¬ made path → fs.nodes path = fs'.nodes path

variable {made : Path → Prop}

theorem SameOff.trans {fs'' : FileSystem Path Content} (h : SameOff made fs fs') (h' : SameOff made fs' fs'') : SameOff made fs fs'' :=
  fun path hpath => (h path hpath).trans (h' path hpath)

theorem SameOff.pathExists {path : Path} (h : SameOff made fs fs') (hkind : s.Kind) (hpath : ¬ made path) :
    fs.pathExists s path = fs'.pathExists s path := FileSystem.pathExists_congr hkind (h path hpath)

theorem ensureRegularFile_ok {path : Path} (h : ensureRegularFile s path fs = .ok ()) : ∃ content, fs.nodes path = some (.file content) := by
  unfold ensureRegularFile at h
  split at h
  · cases h
  · rename_i content hnode
    exact ⟨content, hnode⟩
  · split at h <;> cases h

/-! ## Where directories may be made -/

variable {stage : String → Path} {names : Finset String} {dataByName : String → Option (Par2InputFile Path)} {fs₀ : FileSystem Path Content}

/-- Where directories may be made for the outputs. -/
def MadeFor (s : Surroundings Path) (names : Finset String) (dataByName : String → Option (Par2InputFile Path)) (path : Path) : Prop :=
  ∃ n ∈ names, ∃ i ∈ dataByName n, path ∈ s.ancestors i.outputPath

namespace Places

variable (h : Places s stage names dataByName fs₀)
include h

theorem clear_stage {n : String} (hn : n ∈ names) : ¬ MadeFor s names dataByName (stage n) := by
  rintro ⟨m, hm, i, hi, hmem⟩
  exact h.directory_staged m hm i hi n hn hmem

theorem clear_output {n : String} (hn : n ∈ names) {i : Par2InputFile Path} (hi : i ∈ dataByName n) : ¬ MadeFor s names dataByName i.outputPath := by
  rintro ⟨m, hm, j, hj, hmem⟩
  exact h.directory_output m hm j hj n hn i hi hmem

theorem clear_backup (k : ℕ) (path : Path) : ¬ MadeFor s names dataByName (s.backup k path) := by
  rintro ⟨m, hm, j, hj, hmem⟩
  exact h.directory_backup m hm j hj k path hmem

end Places

variable [DecidableEq Path]

/-! ## Renames -/

/-- What is where after a rename. -/
def moved (source destination : Path) (nodes : Path → Option (Node Content)) : Path → Option (Node Content) :=
  fun x => if x = destination then nodes source else if x = source then none else nodes x

theorem moved_moved {a b : Path} {nodes : Path → Option (Node Content)} (h : nodes b = none) : moved b a (moved a b nodes) = nodes := by
  funext x
  unfold moved
  by_cases ha : x = a
  · rw [if_pos ha, if_pos rfl, ha]
  · rw [if_neg ha]
    by_cases hb : x = b
    · rw [if_pos hb, hb, h]
    · rw [if_neg hb, if_neg hb, if_neg ha]

theorem moved_source {a b : Path} (nodes : Path → Option (Node Content)) (hne : a ≠ b) : moved a b nodes a = none := by
  rw [moved, if_neg hne, if_pos rfl]

theorem moved_destination (a b : Path) (nodes : Path → Option (Node Content)) : moved a b nodes b = nodes a := if_pos rfl

theorem moved_of_ne {a b x : Path} (nodes : Path → Option (Node Content)) (ha : x ≠ a) (hb : x ≠ b) : moved a b nodes x = nodes x := by
  rw [moved, if_neg hb, if_neg ha]

namespace FileSystem

/-- A rename that is tried to undo another one. -/
theorem nodes_rename {a b : Path} (h : fs.nodes a ≠ none) : (fs.rename true a b).2.nodes = moved a b fs.nodes := by
  unfold rename
  split
  · rename_i hnone
    exact absurd hnone h
  · rename_i node hnode
    unfold moved
    rw [hnode]
    rfl

theorem rename_true {a b : Path} {ok : Bool} (h : fs.rename ok a b = (true, fs')) : fs'.nodes = moved a b fs.nodes ∧ fs'.calls = fs.calls + 1 := by
  unfold rename at h
  split at h
  · cases h
  rename_i node hnode
  split at h
  · cases h
    unfold moved
    rw [hnode]
    exact ⟨rfl, rfl⟩
  · cases h

theorem rename_false {a b : Path} {ok : Bool} (h : fs.rename ok a b = (false, fs')) : fs'.nodes = fs.nodes := by
  unfold rename at h
  split at h
  · cases h
    rfl
  · split at h
    · cases h
    · cases h
      rfl

end FileSystem

/-! ## Undoing -/

theorem sameOff_createDirs {destination : Path} (h : ∀ path ∈ s.ancestors destination, made path) : SameOff made (fs.createDirs s destination) fs := by
  intro path hpath
  unfold FileSystem.createDirs
  dsimp only
  rw [if_neg]
  rintro ⟨-, -, hin⟩
  exact hpath (h path hin)

theorem SameOff.rename {a b : Path} (h : SameOff made fs fs') (ha : ¬ made a) : SameOff made (fs.rename true a b).2 (fs'.rename true a b).2 := by
  by_cases hnone : fs.nodes a = none
  · have hnone' : fs'.nodes a = none := (h a ha).symm.trans hnone
    unfold FileSystem.rename
    rw [hnone, hnone']
    exact h
  · have hnone' : fs'.nodes a ≠ none := fun heq => hnone ((h a ha).trans heq)
    intro path hpath
    rw [FileSystem.nodes_rename hnone, FileSystem.nodes_rename hnone']
    unfold moved
    rw [h a ha, h path hpath]

/-- A promotion of paths that are no directories to be made. -/
structure Clear (made : Path → Prop) (promotion : OutputPromotion Path) : Prop where
  source : ¬ made promotion.source
  destination : ¬ made promotion.destination
  backup : ∀ backup ∈ promotion.backup, ¬ made backup

theorem SameOff.rollbackOne {promotion : OutputPromotion Path} (hkind : s.Kind) (h : SameOff made fs fs')
    (hclear : Clear made promotion) : SameOff made (rollbackOne s promotion fs) (rollbackOne s promotion fs') := by
  have hfirst : SameOff made
      (if fs.pathExists s promotion.destination then (fs.rename (s.undone fs.calls) promotion.destination promotion.source).2 else fs)
      (if fs'.pathExists s promotion.destination then (fs'.rename (s.undone fs'.calls) promotion.destination promotion.source).2 else fs') := by
    rw [h.pathExists hkind hclear.destination, hkind.undone, hkind.undone]
    split
    · exact h.rename hclear.destination
    · exact h
  unfold Usenet.rollbackOne
  dsimp only
  generalize (if fs.pathExists s promotion.destination then (fs.rename (s.undone fs.calls) promotion.destination promotion.source).2 else fs) =
      f at hfirst ⊢
  generalize (if fs'.pathExists s promotion.destination then (fs'.rename (s.undone fs'.calls) promotion.destination promotion.source).2 else fs') = f'
    at hfirst ⊢
  split
  · exact hfirst
  rename_i backup hbackup
  rw [hfirst.pathExists hkind (hclear.backup backup hbackup), hkind.undone, hkind.undone]
  split
  · exact hfirst.rename (hclear.backup backup hbackup)
  · exact hfirst

theorem SameOff.rollbackPromotions {promotions : List (OutputPromotion Path)} (hkind : s.Kind) (h : SameOff made fs fs')
    (hclear : ∀ promotion ∈ promotions, Clear made promotion) :
    SameOff made (rollbackPromotions s promotions fs) (rollbackPromotions s promotions fs') := by
  induction promotions with
  | nil => exact h
  | cons promotion rest ih =>
    rw [List.forall_mem_cons] at hclear
    exact (ih hclear.2).rollbackOne hkind hclear.1

/-! ## One promotion -/

/-- A staged file and an output that can be promoted and put back: the file is there, the output is not a link that leads nowhere, and the backup
has a path of its own. -/
structure Ready (made : Path → Prop) (s : Surroundings Path) (source destination : Path) (fs : FileSystem Path Content) : Prop where
  ancestors : ∀ path ∈ s.ancestors destination, made path
  clear_source : ¬ made source
  clear_destination : ¬ made destination
  ne : source ≠ destination
  staged : ∃ content, fs.nodes source = some (.file content)
  link : ∀ target, fs.nodes destination ≠ some (.link target false)
  fresh : ∀ k, fs.calls ≤ k → fs.nodes (s.backup k destination) = none
  clear_backup : ∀ k, ¬ made (s.backup k destination)
  backup_source : ∀ k, s.backup k destination ≠ source
  backup_destination : ∀ k, s.backup k destination ≠ destination

variable {source destination : Path} {promotion : OutputPromotion Path}

/-- What `promote_one` has done when it succeeds. -/
theorem promoteOne_ok (h : promoteOne s source destination fs = (.ok promotion, fs')) :
    promotion.source = source ∧ promotion.destination = destination ∧ fs.calls < fs'.calls ∧
      ((promotion.backup = none ∧ ¬ (fs.createDirs s destination).pathExists s destination = true ∧
          fs'.nodes = moved source destination (fs.createDirs s destination).nodes) ∨
        ∃ k, fs.calls ≤ k ∧ k < fs'.calls ∧ promotion.backup = some (s.backup k destination) ∧
          (fs.createDirs s destination).pathExists s destination = true ∧
          fs'.nodes = moved source destination (moved destination (s.backup k destination) (fs.createDirs s destination).nodes)) := by
  have hcalls : (fs.createDirs s destination).calls = fs.calls + 1 := rfl
  unfold promoteOne at h
  dsimp only at h
  split at h
  · cases h
  split at h
  · rename_i hnew
    rw [Bool.not_eq_true'] at hnew
    split at h
    · cases h
    · rename_i moved hrename
      cases h
      obtain ⟨hnodes, hnext⟩ := FileSystem.rename_true hrename
      exact ⟨rfl, rfl, by omega, Or.inl ⟨rfl, ne_true_of_eq_false hnew, hnodes⟩⟩
  · rename_i hold
    rw [Bool.not_eq_true', Bool.not_eq_false] at hold
    split at h
    · cases h
    rename_i aside hrename
    obtain ⟨hnodes, hnext⟩ := FileSystem.rename_true hrename
    split at h
    · cases h
    · rename_i moved hrename'
      cases h
      obtain ⟨hnodes', hnext'⟩ := FileSystem.rename_true hrename'
      rw [hnodes] at hnodes'
      exact ⟨rfl, rfl, by omega, Or.inr ⟨(fs.createDirs s destination).calls, by omega, by omega, rfl, hold, hnodes'⟩⟩

/-- What it has done when it fails. -/
theorem promoteOne_error {e : Par2Error} (h : promoteOne s source destination fs = (.error e, fs')) (hkind : s.Kind) :
    fs'.nodes = (fs.createDirs s destination).nodes ∨
      ∃ k, fs.calls ≤ k ∧ (fs.createDirs s destination).pathExists s destination = true ∧
        fs'.nodes = moved (s.backup k destination) destination (moved destination (s.backup k destination) (fs.createDirs s destination).nodes) := by
  unfold promoteOne at h
  dsimp only at h
  split at h
  · cases h
    exact Or.inl rfl
  · split at h
    · split at h
      · rename_i hrename
        cases h
        exact Or.inl (FileSystem.rename_false hrename)
      · cases h
    · rename_i hold
      rw [Bool.not_eq_true', Bool.not_eq_false] at hold
      split at h
      · rename_i hrename
        cases h
        exact Or.inl (FileSystem.rename_false hrename)
      · rename_i aside hrename
        obtain ⟨hnodes, -⟩ := FileSystem.rename_true hrename
        split at h
        · rename_i failed hrename'
          have hfailed := FileSystem.rename_false hrename'
          have hthere : failed.nodes (s.backup (fs.createDirs s destination).calls destination) ≠ none := by
            rw [hfailed, hnodes, moved_destination]
            exact FileSystem.nodes_of_pathExists hold
          cases h
          rw [hkind.undone, FileSystem.nodes_rename hthere, hfailed, hnodes]
          exact Or.inr ⟨(fs.createDirs s destination).calls, Nat.le_succ _, hold, rfl⟩
        · cases h

namespace Ready

variable (h : Ready made s source destination fs)
include h

theorem sameOff : SameOff made (fs.createDirs s destination) fs := sameOff_createDirs h.ancestors

theorem backup_free {k : ℕ} (hk : fs.calls ≤ k) : (fs.createDirs s destination).nodes (s.backup k destination) = none := by
  rw [h.sameOff _ (h.clear_backup k)]
  exact h.fresh k hk

/-- A promotion that succeeds has changed the two paths and the backup, and nothing else but directories. -/
theorem promoted {content : Content} (hcontent : fs.nodes source = some (.file content))
    (hok : promoteOne s source destination fs = (.ok promotion, fs')) :
    promotion.source = source ∧ promotion.destination = destination ∧ fs.calls < fs'.calls ∧
      (∀ backup ∈ promotion.backup, ∃ k, fs.calls ≤ k ∧ k < fs'.calls ∧ backup = s.backup k destination) ∧
      fs'.nodes destination = some (.file content) ∧ fs'.nodes source = none ∧
      ∀ path, ¬ made path → path ≠ source → path ≠ destination → promotion.backup ≠ some path → fs'.nodes path = fs.nodes path := by
  have hcontent' : (fs.createDirs s destination).nodes source = some (.file content) := (h.sameOff _ h.clear_source).trans hcontent
  obtain ⟨hsource, hdestination, hcalls, ⟨hbackup, -, hnodes⟩ | ⟨k, hk, hk', hbackup, -, hnodes⟩⟩ := promoteOne_ok hok
  · refine ⟨hsource, hdestination, hcalls, ?_, ?_, ?_, ?_⟩
    · rw [hbackup]
      nofun
    · rw [hnodes, moved_destination, hcontent']
    · rw [hnodes, moved_source _ h.ne]
    · intro path hclear hpath hpath' _
      rw [hnodes, moved_of_ne _ hpath hpath', h.sameOff path hclear]
  · refine ⟨hsource, hdestination, hcalls, ?_, ?_, ?_, ?_⟩
    · rw [hbackup]
      rintro backup hmem
      exact ⟨k, hk, hk', (Option.some.inj hmem).symm⟩
    · rw [hnodes, moved_destination, moved_of_ne _ h.ne (h.backup_source k).symm, hcontent']
    · rw [hnodes, moved_source _ h.ne]
    · intro path hclear hpath hpath' hne
      have hother : path ≠ s.backup k destination := fun heq => hne (hbackup.trans (congrArg some heq.symm))
      rw [hnodes, moved_of_ne _ hpath hpath', moved_of_ne _ hpath' hother, h.sameOff path hclear]

/-- A promotion that fails has put everything back. -/
theorem failed {e : Par2Error} (hkind : s.Kind) (herror : promoteOne s source destination fs = (.error e, fs')) :
    SameOff made fs' fs := by
  rcases Usenet.promoteOne_error herror hkind with hnodes | ⟨k, hk, -, hnodes⟩
  · intro path hpath
    rw [hnodes]
    exact h.sameOff path hpath
  · rw [moved_moved (h.backup_free hk)] at hnodes
    intro path hpath
    rw [hnodes]
    exact h.sameOff path hpath

/-- A promotion is undone by its rollback. -/
theorem undone (hkind : s.Kind) (hok : promoteOne s source destination fs = (.ok promotion, fs')) :
    SameOff made (rollbackOne s promotion fs') fs := by
  obtain ⟨content, hcontent⟩ := h.staged
  obtain ⟨hsource, hdestination, -, hcase⟩ := promoteOne_ok hok
  have hout : fs'.nodes destination = some (.file content) := (h.promoted hcontent hok).2.2.2.2.1
  have hthere : fs'.nodes destination ≠ none := by
    rw [hout]
    exact Option.some_ne_none _
  unfold Usenet.rollbackOne
  rw [hdestination, hsource, if_pos (FileSystem.pathExists_file hkind hout), hkind.undone]
  dsimp only
  rcases hcase with ⟨hbackup, hnew, hnodes⟩ | ⟨k, hk, -, hbackup, hold, hnodes⟩
  · have hfree : (fs.createDirs s destination).nodes destination = none := by
      refine FileSystem.nodes_eq_none hkind hnew fun target => ?_
      rw [h.sameOff _ h.clear_destination]
      exact h.link target
    rw [hbackup]
    intro path hpath
    rw [FileSystem.nodes_rename hthere, hnodes, moved_moved hfree]
    exact h.sameOff path hpath
  · have hback : (fs'.rename true destination source).2.nodes = moved destination (s.backup k destination) (fs.createDirs s destination).nodes := by
      rw [FileSystem.nodes_rename hthere, hnodes, moved_moved (moved_source _ (h.backup_destination k).symm)]
    have hkept : (fs'.rename true destination source).2.nodes (s.backup k destination) = (fs.createDirs s destination).nodes destination := by
      rw [hback, moved_destination]
    have hexists : (fs'.rename true destination source).2.pathExists s (s.backup k destination) = true := by
      unfold FileSystem.pathExists at hold ⊢
      rw [hkind.looked, Bool.true_and] at hold ⊢
      rw [hkept]
      exact hold
    rw [hbackup]
    dsimp only
    rw [if_pos hexists, hkind.undone]
    intro path hpath
    rw [FileSystem.nodes_rename (FileSystem.nodes_of_pathExists hexists), hback, moved_moved (h.backup_free hk)]
    exact h.sameOff path hpath

end Ready

/-! ## The promotions of a run -/

/-- What the promotions of these names have done, and that they can be undone. -/
structure Promoted (s : Surroundings Path) (stage : String → Path) (names : Finset String) (dataByName : String → Option (Par2InputFile Path))
    (fs₀ : FileSystem Path Content) (done : List String) (promotions : List (OutputPromotion Path)) (fs : FileSystem Path Content) : Prop where
  destinations : promotions.map (fun promotion => some promotion.destination) = done.map fun n => (dataByName n).map (·.outputPath)
  placed : ∀ n ∈ done, ∃ i ∈ dataByName n, ∃ content, fs₀.nodes (stage n) = some (.file content) ∧ fs.nodes i.outputPath = some (.file content) ∧
    fs.nodes (stage n) = none
  same : ∀ path, ¬ MadeFor s names dataByName path → (∀ n ∈ done, path ≠ stage n ∧ ∀ i ∈ dataByName n, path ≠ i.outputPath) →
    (∀ promotion ∈ promotions, promotion.backup ≠ some path) → fs.nodes path = fs₀.nodes path
  backups : ∀ promotion ∈ promotions, ∀ backup ∈ promotion.backup, ∃ k < fs.calls, ∃ path, backup = s.backup k path
  clear : ∀ promotion ∈ promotions, Clear (MadeFor s names dataByName) promotion
  rolled : SameOff (MadeFor s names dataByName) (rollbackPromotions s promotions fs) fs₀

section Step

variable {done : List String} {promotions : List (OutputPromotion Path)} {name : String} {input : Par2InputFile Path}
  (h : Places s stage names dataByName fs₀) (hp : Promoted s stage names dataByName fs₀ done promotions fs)
  (hlinks : ∀ n ∈ names, ∀ i ∈ dataByName n, ∀ target, fs₀.nodes i.outputPath ≠ some (.link target false))
  (hdone : ∀ n ∈ done, n ∈ names) (hname : name ∈ names) (hnew : name ∉ done) (hinput : dataByName name = some input)
include h hp hlinks hdone hname hnew hinput

/-- The next name can be promoted and put back. -/
theorem ready_next (hstaged : ∃ content, fs.nodes (stage name) = some (.file content)) :
    Ready (MadeFor s names dataByName) s (stage name) input.outputPath fs where
  ancestors := fun path hpath => ⟨name, hname, input, hinput, hpath⟩
  clear_source := h.clear_stage hname
  clear_destination := h.clear_output hname hinput
  ne := h.apart name hname name hname input hinput
  staged := hstaged
  link := by
    intro target
    rw [hp.same _ (h.clear_output hname hinput)]
    · exact hlinks name hname input hinput target
    · intro n hn
      refine ⟨(h.apart n (hdone n hn) name hname input hinput).symm, fun i hi heq => ?_⟩
      obtain rfl := h.outputs name hname n (hdone n hn) input hinput i hi heq
      exact hnew hn
    · intro promotion hmem hbackup
      obtain ⟨k, -, path, heq⟩ := hp.backups promotion hmem _ hbackup
      exact h.backup_output k path name hname input hinput heq.symm
  fresh := by
    intro k hk
    rw [hp.same _ (h.clear_backup k _)]
    · exact h.fresh k _
    · intro n hn
      exact ⟨h.backup_staged k _ n (hdone n hn), fun i hi => h.backup_output k _ n (hdone n hn) i hi⟩
    · intro promotion hmem hbackup
      obtain ⟨k', hk', path, heq⟩ := hp.backups promotion hmem _ hbackup
      have hsame := h.backups _ _ _ _ heq
      omega
  clear_backup := fun k => h.clear_backup k _
  backup_source := fun k => h.backup_staged k _ name hname
  backup_destination := fun k => h.backup_output k _ name hname input hinput

/-- The promotions with one more. -/
theorem promoted_next (hkind : s.Kind) (hstaged : ∃ content, fs.nodes (stage name) = some (.file content))
    (hok : promoteOne s (stage name) input.outputPath fs = (.ok promotion, fs')) :
    Promoted s stage names dataByName fs₀ (done ++ [name]) (promotions ++ [promotion]) fs' := by
  have hready := ready_next h hp hlinks hdone hname hnew hinput hstaged
  obtain ⟨content, hcontent⟩ := hstaged
  obtain ⟨hsource, hdestination, hcalls, hbackups, hout, hgone, hrest⟩ := hready.promoted hcontent hok
  have hfirst : fs₀.nodes (stage name) = some (.file content) := by
    rw [← hcontent]
    refine (hp.same _ (h.clear_stage hname) (fun n hn => ⟨fun heq => ?_, fun i hi => h.apart name hname n (hdone n hn) i hi⟩) ?_).symm
    · obtain rfl := h.staged name hname n (hdone n hn) heq
      exact hnew hn
    · intro promotion hmem hbackup
      obtain ⟨k, -, path, heq⟩ := hp.backups promotion hmem _ hbackup
      exact h.backup_staged k path name hname heq.symm
  constructor
  · rw [List.map_append, List.map_append, hp.destinations, List.map_singleton, List.map_singleton, hinput, hdestination]
    rfl
  · intro n hn
    rcases List.mem_append.mp hn with hold | hlast
    · obtain ⟨i, hi, c, hstage, houtput, hempty⟩ := hp.placed n hold
      have hne : n ≠ name := fun heq => hnew (heq ▸ hold)
      have hkeep : ∀ path, ¬ MadeFor s names dataByName path → path ≠ stage name → path ≠ input.outputPath →
          (∀ k, path ≠ s.backup k input.outputPath) → fs'.nodes path = fs.nodes path := by
        intro path hclear hpath hpath' hpath''
        refine hrest path hclear hpath hpath' fun hbackup => ?_
        obtain ⟨k, -, -, heq⟩ := hbackups path hbackup
        exact hpath'' k heq
      refine ⟨i, hi, c, hstage, ?_, ?_⟩
      · rw [hkeep _ (h.clear_output (hdone n hold) hi) (h.apart name hname n (hdone n hold) i hi).symm
          (fun heq => hne (h.outputs n (hdone n hold) name hname i hi input hinput heq))
          (fun k heq => h.backup_output k _ n (hdone n hold) i hi heq.symm)]
        exact houtput
      · rw [hkeep _ (h.clear_stage (hdone n hold)) (fun heq => hne (h.staged n (hdone n hold) name hname heq))
          (h.apart n (hdone n hold) name hname input hinput) (fun k heq => h.backup_staged k _ n (hdone n hold) heq.symm)]
        exact hempty
    · rw [List.mem_singleton.mp hlast]
      exact ⟨input, hinput, content, hfirst, hout, hgone⟩
  · intro path hclear hpath hbackup
    have hlast := hpath name (List.mem_append_right _ (List.mem_singleton.mpr rfl))
    rw [hrest path hclear hlast.1 (hlast.2 input hinput) (hbackup promotion (List.mem_append_right _ (List.mem_singleton.mpr rfl)))]
    exact hp.same path hclear (fun n hn => hpath n (List.mem_append_left _ hn)) fun q hq => hbackup q (List.mem_append_left _ hq)
  · intro q hq backup hbackup
    rcases List.mem_append.mp hq with hold | hlast
    · obtain ⟨k, hk, path, heq⟩ := hp.backups q hold backup hbackup
      exact ⟨k, hk.trans hcalls, path, heq⟩
    · rw [List.mem_singleton.mp hlast] at hbackup
      obtain ⟨k, -, hk, heq⟩ := hbackups backup hbackup
      exact ⟨k, hk, _, heq⟩
  · intro q hq
    rcases List.mem_append.mp hq with hold | hlast
    · exact hp.clear q hold
    · rw [List.mem_singleton.mp hlast]
      refine ⟨hsource ▸ hready.clear_source, hdestination ▸ hready.clear_destination, fun backup hbackup => ?_⟩
      obtain ⟨k, -, -, rfl⟩ := hbackups backup hbackup
      exact hready.clear_backup k
  · have hundo : SameOff (MadeFor s names dataByName) (rollbackOne s promotion fs') fs := hready.undone hkind hok
    unfold rollbackPromotions
    rw [List.foldr_append]
    exact (hundo.rollbackPromotions hkind hp.clear).trans hp.rolled

end Step

theorem promoted_nil : Promoted s stage names dataByName fs₀ [] [] fs₀ :=
  ⟨rfl, nofun, fun _ _ _ _ => rfl, nofun, nofun, fun _ _ => rfl⟩

/-- The loop either promotes the names that are left, or puts everything back. -/
theorem promoteLoop_cases (h : Places s stage names dataByName fs₀)
    (hlinks : ∀ n ∈ names, ∀ i ∈ dataByName n, ∀ target, fs₀.nodes i.outputPath ≠ some (.link target false)) (hkind : s.Kind)
    {todo done : List String} {promotions : List (OutputPromotion Path)} (hnames : ∀ n ∈ done ++ todo, n ∈ names) (hnodup : (done ++ todo).Nodup)
    (hp : Promoted s stage names dataByName fs₀ done promotions fs) :
    (∃ e, (promoteLoop s stage dataByName todo promotions fs).1 = .error e ∧
      SameOff (MadeFor s names dataByName) (promoteLoop s stage dataByName todo promotions fs).2 fs₀) ∨
    ∃ promotions', (promoteLoop s stage dataByName todo promotions fs).1 = .ok promotions' ∧
      Promoted s stage names dataByName fs₀ (done ++ todo) promotions' (promoteLoop s stage dataByName todo promotions fs).2 := by
  induction todo generalizing done promotions fs with
  | nil =>
    rw [List.append_nil]
    unfold promoteLoop
    split
    · exact Or.inl ⟨_, rfl, hp.rolled⟩
    · exact Or.inr ⟨_, rfl, hp⟩
  | cons name rest ih =>
    unfold promoteLoop
    split
    · exact Or.inl ⟨_, rfl, hp.rolled⟩
    split
    · exact Or.inl ⟨_, rfl, hp.rolled⟩
    rename_i input hinput
    split
    · exact Or.inl ⟨_, rfl, hp.rolled⟩
    rename_i hregular
    have hstaged := ensureRegularFile_ok hregular
    have hdone : ∀ n ∈ done, n ∈ names := fun n hn => hnames n (List.mem_append_left _ hn)
    have hname : name ∈ names := hnames name (List.mem_append_right _ List.mem_cons_self)
    have hnew : name ∉ done := fun hin => (List.disjoint_of_nodup_append hnodup) hin List.mem_cons_self
    split
    · exact Or.inl ⟨_, rfl, hp.rolled⟩
    split
    · rename_i e fs' hone
      have hback := (ready_next h hp hlinks hdone hname hnew hinput hstaged).failed hkind hone
      exact Or.inl ⟨e, rfl, (hback.rollbackPromotions hkind hp.clear).trans hp.rolled⟩
    · rename_i promotion fs' hone
      have hnext := promoted_next h hp hlinks hdone hname hnew hinput hkind hstaged hone
      rw [List.append_cons done name rest] at hnames hnodup ⊢
      exact ih hnames hnodup hnext

/-! ## The backups -/

/-- Removing the backups of these promotions has removed nothing else, and what could not be removed is listed. -/
structure Cleared (s : Surroundings Path) (fs : FileSystem Path Content) (done : List (OutputPromotion Path))
    (state : FileSystem Path Content × List Path) : Prop where
  kept : ∀ path, (∀ promotion ∈ done, promotion.backup ≠ some path) → state.1.nodes path = fs.nodes path
  gone : ∀ path ∉ state.2, (∃ promotion ∈ done, promotion.backup = some path) → state.1.nodes path = none
  left : ∀ path ∈ state.2, ∃ promotion ∈ done, promotion.backup = some path
  all : (∀ k, s.removed k = true) → state.2 = []

variable {done : List (OutputPromotion Path)} {state : FileSystem Path Content × List Path}

theorem Cleared.removeBackup (h : Cleared s fs done state) (promotion : OutputPromotion Path) :
    Cleared s fs (done ++ [promotion]) (removeBackup s state promotion) := by
  have hkept : ∀ path, (∀ q ∈ done ++ [promotion], q.backup ≠ some path) → state.1.nodes path = fs.nodes path ∧ promotion.backup ≠ some path := by
    intro path hpath
    rw [List.forall_mem_append, List.forall_mem_singleton] at hpath
    exact ⟨h.kept path hpath.1, hpath.2⟩
  have hold : ∀ {path : Path}, (∃ q ∈ done, q.backup = some path) → ∃ q ∈ done ++ [promotion], q.backup = some path := by
    rintro path ⟨q, hq, heq⟩
    exact ⟨q, List.mem_append_left _ hq, heq⟩
  have hnew : ∀ {path : Path}, (∃ q ∈ done ++ [promotion], q.backup = some path) →
      (∃ q ∈ done, q.backup = some path) ∨ promotion.backup = some path := by
    rintro path ⟨q, hq, heq⟩
    rcases List.mem_append.mp hq with hin | hlast
    · exact Or.inl ⟨q, hin, heq⟩
    · rw [List.mem_singleton.mp hlast] at heq
      exact Or.inr heq
  unfold Usenet.removeBackup
  split
  · rename_i hnone
    refine ⟨fun path hpath => (hkept path hpath).1, fun path hleft hex => ?_, fun path hleft => hold (h.left path hleft), h.all⟩
    rcases hnew hex with hin | heq
    · exact h.gone path hleft hin
    · rw [hnone] at heq
      cases heq
  · rename_i backup hbackup
    split
    · refine ⟨fun path hpath => ?_, fun path hleft hex => ?_, fun path hleft => hold (h.left path hleft), h.all⟩
      · obtain ⟨hsame, hne⟩ := hkept path hpath
        have hother : path ≠ backup := fun heq => hne (heq ▸ hbackup)
        exact (if_neg hother).trans hsame
      · show (if path = backup then none else state.1.nodes path) = none
        split
        · rfl
        · rename_i hother
          rcases hnew hex with hin | heq
          · exact h.gone path hleft hin
          · rw [hbackup] at heq
            exact absurd (Option.some.inj heq).symm hother
    · rename_i hfailed
      refine ⟨fun path hpath => (hkept path hpath).1, fun path hleft hex => ?_, fun path hleft => ?_, fun hall => absurd (hall _) hfailed⟩
      · rw [List.mem_append, List.mem_singleton, not_or] at hleft
        rcases hnew hex with hin | heq
        · exact h.gone path hleft.1 hin
        · rw [hbackup] at heq
          exact absurd (Option.some.inj heq).symm hleft.2
      · rcases List.mem_append.mp hleft with hin | hlast
        · exact hold (h.left path hin)
        · rw [List.mem_singleton.mp hlast]
          exact ⟨promotion, List.mem_append_right _ (List.mem_singleton.mpr rfl), hbackup⟩

theorem Cleared.foldl {todo : List (OutputPromotion Path)} (h : Cleared s fs done state) :
    Cleared s fs (done ++ todo) (todo.foldl (Usenet.removeBackup s) state) := by
  induction todo generalizing done state with
  | nil =>
    rw [List.append_nil]
    exact h
  | cons promotion rest ih =>
    rw [List.append_cons]
    exact ih (h.removeBackup promotion)

end Usenet

end Risuko
