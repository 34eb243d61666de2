import Risuko.Metainfo.Components

/-!
# Safe path components

What `isSafeComponent` lets through (`SafeComponent`), and that no later step makes a component unsafe: numbering, sanitising for Windows
and renaming on collision.
-/

namespace Risuko

namespace Metainfo

/-- A component that stays in its directory: it names an entry of it and nothing else. -/
structure SafeComponent (platform : Platform) (c : Text) : Prop where
  ne_nil : c ≠ []
  ne_dot : c ≠ ['.']
  ne_dotDot : c ≠ ['.', '.']
  no_slash : '/' ∉ c
  no_backslash : '\\' ∉ c
  no_nul : '\x00' ∉ c
  no_drive : platform.windows = true → hasDrivePrefix c = false

variable {platform : Platform}

theorem isSafeComponent_iff {c : Text} : isSafeComponent platform c = true ↔ SafeComponent platform c := by
  unfold isSafeComponent
  constructor
  · intro h
    split at h
    · cases h
    · rename_i hbad
      simp only [Bool.or_eq_true, List.isEmpty_iff, decide_eq_true_eq, List.any_eq_true, not_or, not_exists, not_and] at hbad
      obtain ⟨⟨⟨hnil, hdot⟩, hdots⟩, hany⟩ := hbad
      refine ⟨hnil, hdot, hdots, fun hm => (hany _ hm).1.1 rfl, fun hm => (hany _ hm).1.2 rfl, fun hm => (hany _ hm).2 rfl, ?_⟩
      intro hw
      simp only [Bool.not_eq_true', Bool.and_eq_false_imp] at h
      exact h hw
  · intro h
    have hany : (c.any fun c => decide (c = '/') || decide (c = '\\') || decide (c = '\x00')) = false := by
      rw [List.any_eq_false]
      intro x hx
      simp only [Bool.or_eq_true, decide_eq_true_eq, not_or]
      exact ⟨⟨fun e => h.no_slash (e ▸ hx), fun e => h.no_backslash (e ▸ hx)⟩, fun e => h.no_nul (e ▸ hx)⟩
    have hnil : c.isEmpty = false := by
      rw [List.isEmpty_eq_false_iff]
      exact h.ne_nil
    rw [hany, hnil]
    simp only [h.ne_dot, h.ne_dotDot, decide_false, Bool.or_self, Bool.false_eq_true, if_false, Bool.not_eq_true',
      Bool.and_eq_false_imp]
    exact h.no_drive

/-! ## Numbers -/

theorem mem_showNat {n : ℕ} {c : Char} (h : c ∈ showNat n) : ∃ b : UInt8, isAsciiDigit b = true ∧ c = Char.ofNat b.toNat := by
  obtain ⟨b, hb, rfl⟩ := List.mem_map.mp h
  exact ⟨b, List.all_eq_true.mp (decimal_all n) b hb, rfl⟩

/-- A digit is none of the characters that a component must not have. -/
theorem not_mem_showNat {n : ℕ} {c : Char} (hc : c.toNat < 48 ∨ 57 < c.toNat) : c ∉ showNat n := by
  intro hmem
  obtain ⟨b, hb, rfl⟩ := mem_showNat hmem
  unfold isAsciiDigit at hb
  simp only [Bool.and_eq_true, decide_eq_true_eq] at hb
  have hdigit : ∀ d < 58, 48 ≤ d → (Char.ofNat d).toNat = d := by decide
  rw [hdigit b.toNat (by omega) hb.1] at hc
  omega

theorem showNat_ne_nil (n : ℕ) : showNat n ≠ [] := fun h => decimal_ne_nil n (List.map_eq_nil_iff.mp h)

theorem safe_showNat (n : ℕ) : SafeComponent platform (showNat n) where
  ne_nil := showNat_ne_nil n
  ne_dot := by
    intro h
    exact not_mem_showNat (n := n) (c := '.') (by decide) (h ▸ List.mem_cons_self)
  ne_dotDot := by
    intro h
    exact not_mem_showNat (n := n) (c := '.') (by decide) (h ▸ List.mem_cons_self)
  no_slash := not_mem_showNat (by decide)
  no_backslash := not_mem_showNat (by decide)
  no_nul := not_mem_showNat (by decide)
  no_drive := by
    intro _
    have hcolon := not_mem_showNat (n := n) (c := ':') (by decide)
    unfold hasDrivePrefix
    split
    · rename_i letter colon rest heq
      rw [heq] at hcolon
      simp only [List.mem_cons, not_or] at hcolon
      simp [Ne.symm hcolon.2.1]
    · rfl

theorem safe_pad : SafeComponent platform ".pad".toList :=
  ⟨by decide, by decide, by decide, by decide, by decide, by decide, fun _ => by decide⟩

/-! ## Numbered names -/

/-- The name is cut somewhere behind its first character, and the number put in. -/
theorem numberedName_eq (name : Text) (n : ℕ) (hne : name ≠ []) :
    ∃ front back, name = front ++ back ∧ front ≠ [] ∧
      numberedName name n = front ++ (" (".toList ++ (showNat n ++ [')'])) ++ back := by
  unfold numberedName
  dsimp only
  split
  · rename_i h
    simp only [Bool.and_eq_true, decide_eq_true_eq] at h
    refine ⟨_, _, (List.take_append_drop (name.length - ((name.reverse.takeWhile fun c => decide (c ≠ '.')).reverse).length - 1) name).symm,
      ?_, by simp only [List.append_assoc]⟩
    intro hnil
    have hlen := congrArg List.length hnil
    rw [List.length_take, List.length_nil] at hlen
    have hpos := List.length_pos_iff.mpr hne
    omega
  · exact ⟨name, [], (List.append_nil _).symm, hne, by rw [List.append_nil]⟩

theorem hasDrivePrefix_append_blank {front : Text} (hne : front ≠ []) (back : Text) :
    hasDrivePrefix (front ++ ' ' :: back) = hasDrivePrefix front := by
  match front, hne with
  | [c], _ => simp [hasDrivePrefix]
  | _ :: _ :: _, _ => rfl

theorem hasDrivePrefix_of_front {front back : Text} (h : hasDrivePrefix front = true) : hasDrivePrefix (front ++ back) = true := by
  match front, h with
  | _ :: _ :: _, h => exact h

theorem safe_numberedName {name : Text} (h : SafeComponent platform name) (n : ℕ) : SafeComponent platform (numberedName name n) := by
  obtain ⟨front, back, hname, hne, hnumbered⟩ := numberedName_eq name n h.ne_nil
  have hmem : ∀ c ∈ numberedName name n, c ∈ name ∨ c ∈ [' ', '(', ')'] ∨ c ∈ showNat n := by
    intro c hc
    rw [hnumbered] at hc
    rw [hname]
    simp only [List.mem_append, List.mem_cons, List.not_mem_nil, or_false] at hc ⊢
    rcases hc with (hc | hc | hc | hc) | hc
    · exact Or.inl (Or.inl hc)
    · have htwo : c = ' ' ∨ c = '(' := by simpa using hc
      rcases htwo with rfl | rfl
      · exact Or.inr (Or.inl (Or.inl rfl))
      · exact Or.inr (Or.inl (Or.inr (Or.inl rfl)))
    · exact Or.inr (Or.inr hc)
    · exact Or.inr (Or.inl (Or.inr (Or.inr hc)))
    · exact Or.inl (Or.inr hc)
  have hblank : ' ' ∈ numberedName name n := by
    rw [hnumbered]
    simp
  have havoid : ∀ c, c ∉ name → c ∉ [' ', '(', ')'] → (c.toNat < 48 ∨ 57 < c.toNat) → c ∉ numberedName name n := by
    intro c h1 h2 h3 hc
    rcases hmem c hc with hc | hc | hc
    · exact h1 hc
    · exact h2 hc
    · exact not_mem_showNat h3 hc
  refine ⟨fun e => ?_, fun e => ?_, fun e => ?_, havoid _ h.no_slash (by decide) (by decide),
    havoid _ h.no_backslash (by decide) (by decide), havoid _ h.no_nul (by decide) (by decide), fun hw => ?_⟩
  · rw [e] at hblank
    cases hblank
  · rw [e] at hblank
    exact absurd hblank (by decide)
  · rw [e] at hblank
    exact absurd hblank (by decide)
  · rw [hnumbered, List.append_assoc]
    have hfront : hasDrivePrefix front = false := by
      by_contra hdrive
      rw [Bool.not_eq_false] at hdrive
      have hsafe := h.no_drive hw
      rw [hname, hasDrivePrefix_of_front hdrive] at hsafe
      cases hsafe
    exact (hasDrivePrefix_append_blank hne _).trans hfront

/-! ## Components on disk -/

/-- Nothing that was trimmed away at the end is at the end of what is left. -/
theorem getLast_trim {p : Char → Bool} {l : Text} (h : (l.reverse.dropWhile p).reverse ≠ []) :
    p ((l.reverse.dropWhile p).reverse.getLast h) = false := by
  have hne : l.reverse.dropWhile p ≠ [] := by
    intro hnil
    exact h (by rw [hnil, List.reverse_nil])
  have hhead := List.head_dropWhile_not p hne
  rwa [List.getLast_reverse]

theorem safe_sanitizeWindowsComponent {c : Text} (h : SafeComponent platform c) :
    SafeComponent platform (sanitizeWindowsComponent c) := by
  unfold sanitizeWindowsComponent
  dsimp only
  generalize hr : (c.map fun c => if (isControl c || decide (c ∈ ['<', '>', ':', '"', '|', '?', '*'])) = true then '_' else c) = replaced
  -- Neither what is forbidden nor a colon is among the characters that are left.
  have hreplaced : ∀ x ∈ replaced, x ≠ '/' ∧ x ≠ '\\' ∧ x ≠ '\x00' ∧ x ≠ ':' := by
    intro x hx
    rw [← hr] at hx
    obtain ⟨y, hy, rfl⟩ := List.mem_map.mp hx
    split
    · exact ⟨by decide, by decide, by decide, by decide⟩
    · rename_i hy'
      refine ⟨fun e => h.no_slash (e ▸ hy), fun e => h.no_backslash (e ▸ hy), fun e => h.no_nul (e ▸ hy), fun e => hy' ?_⟩
      rw [e]
      decide
  have hout : ∀ x ∈ (replaced.reverse.dropWhile fun c => decide (c = '.') || decide (c = ' ')).reverse, x ∈ replaced := by
    intro x hx
    exact List.mem_reverse.mp ((List.dropWhile_sublist _).subset (List.mem_reverse.mp hx))
  have hlast := getLast_trim (p := fun c => decide (c = '.') || decide (c = ' ')) (l := replaced)
  generalize (replaced.reverse.dropWhile fun c => decide (c = '.') || decide (c = ' ')).reverse = out at hout hlast ⊢
  have hsafe : out ≠ [] → SafeComponent platform out := by
    intro hne
    refine ⟨hne, fun e => ?_, fun e => ?_, fun hm => (hreplaced _ (hout _ hm)).1 rfl, fun hm => (hreplaced _ (hout _ hm)).2.1 rfl,
      fun hm => (hreplaced _ (hout _ hm)).2.2.1 rfl, fun _ => ?_⟩
    · subst e
      exact absurd (hlast hne) (by simp)
    · subst e
      exact absurd (hlast hne) (by simp)
    · unfold hasDrivePrefix
      split
      · rename_i letter colon rest
        have hcolon := (hreplaced _ (hout colon (List.mem_cons_of_mem _ List.mem_cons_self))).2.2.2
        simp [hcolon]
      · rfl
  split
  · exact ⟨by decide, by decide, by decide, by decide, by decide, by decide, fun _ => by decide⟩
  rename_i hne
  have hne' : out ≠ [] := fun e => hne (List.isEmpty_iff.mpr e)
  have hs := hsafe hne'
  split
  · refine ⟨by simp, by simp, by simp, ?_, ?_, ?_, fun _ => ?_⟩
    · simpa using hs.no_slash
    · simpa using hs.no_backslash
    · simpa using hs.no_nul
    · match out, hne' with
      | _ :: _, _ => rfl
  · exact hs

theorem safe_fsComponent {c : Text} (h : SafeComponent platform c) : SafeComponent platform (fsComponent platform c) := by
  unfold fsComponent
  split
  · exact safe_sanitizeWindowsComponent h
  · exact h

/-! ## Renaming -/

/-- A path of one safe component or more. -/
def SafePath (platform : Platform) (path : List Text) : Prop := path ≠ [] ∧ ∀ c ∈ path, SafeComponent platform c

theorem SafePath.append {path : List Text} {name : Text} (h : ∀ c ∈ path, SafeComponent platform c)
    (hname : SafeComponent platform name) : SafePath platform (path ++ [name]) := by
  refine ⟨by simp, fun c hc => ?_⟩
  rcases List.mem_append.mp hc with hc | hc
  · exact h c hc
  · rw [List.mem_singleton.mp hc]
    exact hname

theorem safe_findFree {path candidate : List Text} {last : Text} (hpath : ∀ c ∈ path, SafeComponent platform c)
    (hlast : SafeComponent platform last) {fuel next next' : ℕ} {taken taken' : Finset Text}
    (h : findFree platform path last fuel next taken = some (candidate, next', taken')) : SafePath platform candidate := by
  induction fuel generalizing next with
  | zero => cases h
  | succ fuel ih =>
    unfold findFree at h
    dsimp only at h
    split at h
    · exact ih h
    · cases h
      exact SafePath.append (fun c hc => hpath c (List.mem_of_mem_dropLast hc)) (safe_numberedName hlast next)

theorem safe_dedupeFrom {fuel : ℕ} {marked : List (List Text × Bool)} {taken seen : Finset Text} {nextSuffix : Text → ℕ}
    {paths : List (List Text)} (hsafe : ∀ e ∈ marked, SafePath platform e.1)
    (h : dedupeFrom platform fuel marked taken seen nextSuffix = some paths) :
    paths.length = marked.length ∧ ∀ path ∈ paths, SafePath platform path := by
  induction marked generalizing taken seen nextSuffix paths with
  | nil =>
    cases h
    exact ⟨rfl, fun path hp => absurd hp List.not_mem_nil⟩
  | cons e rest ih =>
    obtain ⟨path, isSkipped⟩ := e
    obtain ⟨hfirst, hrest⟩ := List.forall_mem_cons.mp hsafe
    -- Every branch puts one safe path in front of the paths of the rest.
    have hcons : ∀ {first : List Text} {taken seen : Finset Text} {nextSuffix : Text → ℕ}, SafePath platform first →
        (dedupeFrom platform fuel rest taken seen nextSuffix).map (first :: ·) = some paths →
        paths.length = rest.length + 1 ∧ ∀ path ∈ paths, SafePath platform path := by
      intro first taken seen nextSuffix hs heq
      obtain ⟨tail, htail, rfl⟩ := Option.map_eq_some_iff.mp heq
      obtain ⟨hlen, hall⟩ := ih hrest htail
      exact ⟨by rw [List.length_cons, hlen], List.forall_mem_cons.mpr ⟨hs, hall⟩⟩
    unfold dedupeFrom at h
    split at h
    · exact hcons hfirst h
    dsimp only at h
    split at h
    · exact hcons hfirst h
    split at h
    · exact hcons hfirst h
    rename_i last hlast
    split at h
    · cases h
    · rename_i candidate next taken' hfind
      have hmem : last ∈ path := List.mem_of_getLast? hlast
      exact hcons (safe_findFree hfirst.2 (hfirst.2 _ hmem) hfind) h

theorem safe_dedupePaths {fuel : ℕ} {paths paths' : List (List Text)} {skip : List Bool}
    (hsafe : ∀ path ∈ paths, SafePath platform path) (h : dedupePaths platform fuel paths skip = some paths') :
    paths'.length = paths.length ∧ ∀ path ∈ paths', SafePath platform path := by
  unfold dedupePaths at h
  dsimp only at h
  have hmarked : ∀ e ∈ paths.zipIdx.map (fun e => (e.1, skip.getD e.2 false || e.1.isEmpty)), SafePath platform e.1 := by
    intro e he
    obtain ⟨x, hx, rfl⟩ := List.mem_map.mp he
    exact hsafe _ (List.fst_mem_of_mem_zipIdx hx)
  obtain ⟨hlen, hall⟩ := safe_dedupeFrom hmarked h
  rw [List.length_map, List.length_zipIdx] at hlen
  exact ⟨hlen, hall⟩

/-! ## Names of children -/

theorem showNat_injective : Function.Injective showNat := by
  intro m n h
  have hback : ∀ k, (showNat k).map (fun c => UInt8.ofNat c.toNat) = decimal k := by
    intro k
    have hdigit : ∀ d < 58, 48 ≤ d → (Char.ofNat d).toNat = d := by decide
    rw [showNat, List.map_map, List.map_congr_left (g := id), List.map_id]
    intro b hb
    have hd := List.all_eq_true.mp (decimal_all k) b hb
    unfold isAsciiDigit at hd
    simp only [Bool.and_eq_true, decide_eq_true_eq] at hd
    rw [Function.comp_apply, hdigit b.toNat (by omega) hd.1, UInt8.ofNat_toNat]
    rfl
  have hdec : decimal m = decimal n := by rw [← hback, ← hback, h]
  have hparse := parseDigits_decimal m
  rw [hdec, parseDigits_decimal] at hparse
  exact (Option.some.inj hparse).symm

end Metainfo

end Risuko
