import Mathlib.Data.List.TakeWhile
import Risuko.Lemmas.Components
import Risuko.Lib.Lowercase

/-!
# Renaming on collision

A number that is put into a name is still there in the key of the path on disk (`diskPathKey_numberedName`), so different numbers give
different keys, and the loop that looks for a free name finds one (`findFree_some`). What a run of `dedupe_paths` over the rest of the
paths has done is `Deduped`.
-/

namespace Risuko

namespace Metainfo

/-- A platform whose lower case is that of Unicode. -/
def unicodePlatform (windows macos : Bool) (tables : CaseTables) : Platform := ⟨windows, macos, tables.toLowercase⟩

/-- What `numbered_name` puts into a name. -/
def numbering (n : ℕ) : Text := " (".toList ++ (showNat n ++ [')'])

/-! ## The number in a name -/

theorem numbering_injective : Function.Injective numbering := by
  intro m n h
  exact showNat_injective (List.append_cancel_right (List.append_cancel_left h))

theorem numbering_ne_nil (n : ℕ) : numbering n ≠ [] := nofun

/-- What holds of a blank, of brackets and of digits holds of every character that is put in. -/
theorem numbering_forall {p : Char → Prop} (hblank : p ' ') (hopen : p '(') (hclose : p ')')
    (hdigit : ∀ d < 58, 48 ≤ d → p (Char.ofNat d)) (n : ℕ) : ∀ c ∈ numbering n, p c := by
  intro c hc
  unfold numbering at hc
  simp only [List.mem_append, List.mem_singleton] at hc
  rcases hc with hc | hc | rfl
  · have htwo : c = ' ' ∨ c = '(' := by simpa using hc
    rcases htwo with rfl | rfl
    · exact hblank
    · exact hopen
  · obtain ⟨b, hb, rfl⟩ := mem_showNat hc
    unfold isAsciiDigit at hb
    simp only [Bool.and_eq_true, decide_eq_true_eq] at hb
    exact hdigit b.toNat (by omega) hb.1
  · exact hclose

theorem exists_numberedName (name : Text) : ∃ front back, ∀ n, numberedName name n = front ++ (numbering n ++ back) := by
  unfold numberedName
  dsimp only
  split
  · exact ⟨_, _, fun n => rfl⟩
  · exact ⟨name, [], fun n => by rw [List.append_nil, numbering]⟩

/-! ## The number on disk -/

theorem not_mem_reserved {stem : Text} (h : isReserved stem = true) : ' ' ∉ stem := by
  unfold isReserved at h
  simp only [Bool.or_eq_true, Bool.and_eq_true, decide_eq_true_eq, List.all_eq_true] at h
  rcases h with h | ⟨⟨hfront, -⟩, hback⟩
  · intro hblank
    have hnone : ∀ s ∈ ["CON".toList, "PRN".toList, "AUX".toList, "NUL".toList], ' ' ∉ s := by decide
    exact hnone stem h hblank
  · intro hblank
    rw [← List.take_append_drop 3 stem, List.mem_append] at hblank
    rcases hblank with hblank | hblank
    · rcases hfront with hfront | hfront <;>
      · rw [hfront] at hblank
        exact absurd hblank (by decide)
    · exact absurd (hback ' ' hblank).1 (by decide)

/-- Trimming the end of a name does not go over the number. -/
theorem trim_numbering (front back : Text) (n : ℕ) :
    ((front ++ (numbering n ++ back)).reverse.dropWhile fun c => c = '.' || c = ' ').reverse =
      front ++ (numbering n ++ (back.reverse.dropWhile fun c => c = '.' || c = ' ').reverse) := by
  have hstop : (((numbering n).reverse ++ front.reverse).dropWhile fun c => c = '.' || c = ' ') = (numbering n).reverse ++ front.reverse := by
    unfold numbering
    rw [List.reverse_append, List.reverse_append]
    rfl
  rw [List.reverse_append, List.reverse_append, List.append_assoc, List.dropWhile_append]
  split
  · rename_i hempty
    rw [List.isEmpty_iff] at hempty
    rw [hstop, hempty]
    simp
  · simp

theorem exists_sanitize_numbering (front back : Text) :
    ∃ front' back', ∀ n, sanitizeWindowsComponent (front ++ (numbering n ++ back)) = front' ++ (numbering n ++ back') := by
  let clean : Char → Char := fun c => if isControl c || c ∈ ['<', '>', ':', '"', '|', '?', '*'] then '_' else c
  let trimmed : Text := ((back.map clean).reverse.dropWhile fun c => c = '.' || c = ' ').reverse
  have hkept : ∀ n, (numbering n).map clean = numbering n := by
    intro n
    refine (List.map_congr_left fun c hc => ?_).trans (List.map_id _)
    exact numbering_forall (p := fun c => clean c = id c) (by decide) (by decide) (by decide) (by decide) n c hc
  have hout : ∀ n, (((front ++ (numbering n ++ back)).map clean).reverse.dropWhile fun c => c = '.' || c = ' ').reverse =
      front.map clean ++ (numbering n ++ trimmed) := by
    intro n
    rw [List.map_append, List.map_append, hkept, trim_numbering]
  have hnonempty : ∀ n, (front.map clean ++ (numbering n ++ trimmed)).isEmpty = false := by
    intro n
    rw [List.isEmpty_eq_false_iff]
    simp [numbering_ne_nil]
  by_cases hdot : '.' ∈ front.map clean
  · -- The stem ends before the number.
    have hstem : ∀ n, (front.map clean ++ (numbering n ++ trimmed)).takeWhile (fun c => c ≠ '.') =
        (front.map clean).takeWhile fun c => c ≠ '.' := by
      intro n
      rw [List.takeWhile_append, if_neg]
      intro hlen
      rw [← (List.takeWhile_prefix fun c => decide (c ≠ '.')).eq_of_length hlen] at hdot
      exact absurd (List.mem_takeWhile_imp hdot) (by simp)
    by_cases hreserved : isReserved (((front.map clean).takeWhile fun c => c ≠ '.').map toAsciiUppercase) = true
    · refine ⟨'_' :: front.map clean, trimmed, fun n => ?_⟩
      unfold sanitizeWindowsComponent
      dsimp only
      rw [hout, hnonempty, if_neg Bool.false_ne_true, hstem, if_pos hreserved, List.cons_append]
    · refine ⟨front.map clean, trimmed, fun n => ?_⟩
      unfold sanitizeWindowsComponent
      dsimp only
      rw [hout, hnonempty, if_neg Bool.false_ne_true, hstem, if_neg hreserved]
  · -- The blank before the number is in the stem.
    refine ⟨front.map clean, trimmed, fun n => ?_⟩
    have hblank : ' ' ∈ ((front.map clean ++ (numbering n ++ trimmed)).takeWhile fun c => c ≠ '.').map toAsciiUppercase := by
      have hfront : ∀ c ∈ front.map clean, (decide (c ≠ '.')) = true := by
        intro c hc
        exact decide_eq_true fun h => hdot (h ▸ hc)
      rw [List.takeWhile_append_of_pos hfront, List.map_append, List.mem_append]
      exact Or.inr List.mem_cons_self
    unfold sanitizeWindowsComponent
    dsimp only
    rw [hout, hnonempty, if_neg Bool.false_ne_true, if_neg fun h => not_mem_reserved h hblank]

theorem exists_intercalate_snoc (parts : List Text) : ∃ front, ∀ last, ['/'].intercalate (parts ++ [last]) = front ++ last := by
  induction parts with
  | nil => exact ⟨[], fun last => List.intercalate_singleton⟩
  | cons part parts ih =>
    obtain ⟨front, hfront⟩ := ih
    refine ⟨part ++ ['/'] ++ front, fun last => ?_⟩
    rw [List.cons_append, List.intercalate_cons_of_ne_nil (by simp), hfront, ← List.append_assoc]

theorem numbering_neutral (tables : CaseTables) (n : ℕ) : ∀ c ∈ numbering n, tables.Neutral c := by
  refine numbering_forall ⟨rfl, rfl, rfl, by decide⟩ ⟨rfl, rfl, rfl, by decide⟩ ⟨rfl, rfl, rfl, by decide⟩ ?_ n
  intro d hd hlow
  have hsmall : ∀ d < 58, 48 ≤ d → (Char.ofNat d).toNat < 128 ∧ (Char.ofNat d).toLower = Char.ofNat d ∧ (Char.ofNat d).isAlpha = false ∧
      Char.ofNat d ∉ ['\'', '.', ':', '^', '\x60'] ∧ Char.ofNat d ≠ 'Σ' := by decide
  obtain ⟨hascii, hlower, halpha, hignored, hsigma⟩ := hsmall d hd hlow
  refine ⟨?_, ?_, ?_, hsigma⟩
  · rw [CaseTables.lowerOf, if_pos hascii, hlower]
  · rw [CaseTables.isCased, if_pos hascii, halpha]
  · rw [CaseTables.isIgnorable, if_pos hascii, decide_eq_false hignored]

variable {windows macos : Bool} {tables : CaseTables}

/-- The number of a name stands in the key of the path on disk, and what stands around it does not depend on it. -/
theorem diskPathKey_numberedName (windows macos : Bool) (tables : CaseTables) (dir : List Text) (last : Text) :
    ∃ front back, ∀ n, diskPathKey (unicodePlatform windows macos tables) (dir ++ [numberedName last n]) = front ++ (numbering n ++ back) := by
  obtain ⟨nameFront, nameBack, hname⟩ := exists_numberedName last
  have hcomponent : ∃ front back, ∀ n, fsComponent (unicodePlatform windows macos tables) (numberedName last n) = front ++ (numbering n ++ back) := by
    cases windows with
    | false => exact ⟨nameFront, nameBack, hname⟩
    | true =>
      obtain ⟨front, back, hsanitized⟩ := exists_sanitize_numbering nameFront nameBack
      refine ⟨front, back, fun n => ?_⟩
      rw [hname]
      exact hsanitized n
  obtain ⟨front, back, hfs⟩ := hcomponent
  obtain ⟨joined, hjoined⟩ := exists_intercalate_snoc (dir.map (fsComponent (unicodePlatform windows macos tables)))
  have hkey : ∀ n, ['/'].intercalate ((dir ++ [numberedName last n]).map (fsComponent (unicodePlatform windows macos tables))) =
      (joined ++ front) ++ (numbering n ++ back) := by
    intro n
    rw [List.map_append, List.map_singleton, hjoined, hfs, List.append_assoc]
  unfold diskPathKey
  dsimp only
  split
  · refine ⟨tables.toLowercase (joined ++ front), tables.toLowercase back, fun n => ?_⟩
    rw [hkey]
    exact CaseTables.toLowercase_append_neutral (numbering_ne_nil n) (numbering_neutral tables n) _ _
  · exact ⟨joined ++ front, back, hkey⟩

theorem diskPathKey_numberedName_injective (windows macos : Bool) (tables : CaseTables) (dir : List Text) (last : Text) :
    Function.Injective fun n => diskPathKey (unicodePlatform windows macos tables) (dir ++ [numberedName last n]) := by
  obtain ⟨front, back, hkey⟩ := diskPathKey_numberedName windows macos tables dir last
  intro m n h
  dsimp only at h
  rw [hkey, hkey] at h
  exact numbering_injective (List.append_cancel_right (List.append_cancel_left h))

/-! ## The loop that looks for a free name -/

/-- Among as many names as there are keys taken, and one more, one is free. -/
theorem exists_free {key : ℕ → Text} (hkey : Function.Injective key) (taken : Finset Text) (next : ℕ) :
    ∃ d ≤ taken.card, key (next + d) ∉ taken := by
  have hcard : ((Finset.range (taken.card + 1)).image fun d => key (next + d)).card = taken.card + 1 := by
    rw [Finset.card_image_of_injective _ fun d e h => Nat.add_left_cancel (hkey h), Finset.card_range]
  obtain ⟨k, hk, hfree⟩ := Finset.exists_mem_notMem_of_card_lt_card (hcard.ge.trans_lt' (Nat.lt_succ_self taken.card))
  obtain ⟨d, hd, rfl⟩ := Finset.mem_image.mp hk
  exact ⟨d, Nat.lt_succ_iff.mp (Finset.mem_range.mp hd), hfree⟩

/-- The loop ends at a name whose key is free, however many more turns it could take. -/
theorem findFree_some (path : List Text) (last : Text) (taken : Finset Text) (next : ℕ) :
    ∃ n, diskPathKey (unicodePlatform windows macos tables) (path.dropLast ++ [numberedName last n]) ∉ taken ∧
      ∀ fuel, taken.card < fuel → findFree (unicodePlatform windows macos tables) path last fuel next taken =
        some (path.dropLast ++ [numberedName last n], n + 1,
          insert (diskPathKey (unicodePlatform windows macos tables) (path.dropLast ++ [numberedName last n])) taken) := by
  have hloop : ∀ d next, diskPathKey (unicodePlatform windows macos tables) (path.dropLast ++ [numberedName last (next + d)]) ∉ taken →
      ∃ n, diskPathKey (unicodePlatform windows macos tables) (path.dropLast ++ [numberedName last n]) ∉ taken ∧
        ∀ fuel, d < fuel → findFree (unicodePlatform windows macos tables) path last fuel next taken =
          some (path.dropLast ++ [numberedName last n], n + 1,
            insert (diskPathKey (unicodePlatform windows macos tables) (path.dropLast ++ [numberedName last n])) taken) := by
    intro d
    induction d with
    | zero =>
      intro next hfree
      refine ⟨next, hfree, fun fuel hfuel => ?_⟩
      obtain ⟨fuel, rfl⟩ := Nat.exists_eq_succ_of_ne_zero hfuel.ne'
      exact if_neg hfree
    | succ d ih =>
      intro next hfree
      by_cases hnext : diskPathKey (unicodePlatform windows macos tables) (path.dropLast ++ [numberedName last next]) ∈ taken
      · rw [show next + (d + 1) = next + 1 + d by omega] at hfree
        obtain ⟨n, hn, hfound⟩ := ih (next + 1) hfree
        refine ⟨n, hn, fun fuel hfuel => ?_⟩
        obtain ⟨fuel, rfl⟩ := Nat.exists_eq_succ_of_ne_zero (Nat.ne_of_gt (Nat.zero_lt_of_lt hfuel))
        exact (if_pos hnext).trans (hfound fuel (by omega))
      · refine ⟨next, hnext, fun fuel hfuel => ?_⟩
        obtain ⟨fuel, rfl⟩ := Nat.exists_eq_succ_of_ne_zero (Nat.ne_of_gt (Nat.zero_lt_of_lt hfuel))
        exact if_neg hnext
  obtain ⟨d, hd, hfree⟩ :=
    exists_free (diskPathKey_numberedName_injective windows macos tables path.dropLast last) taken next
  obtain ⟨n, hn, hfound⟩ := hloop d next hfree
  exact ⟨n, hn, fun fuel hfuel => hfound fuel (by omega)⟩

/-! ## The loop over the paths -/

/-- What the loop has made of the rest of the paths, where it came with the keys it had seen. -/
structure Deduped (platform : Platform) (seen : Finset Text) (marked : List (List Text × Bool)) (out : List (List Text)) : Prop where
  length_eq : out.length = marked.length
  skipped : ∀ (i : ℕ) (path : List Text), marked[i]? = some (path, true) → out[i]? = some path
  unseen : ∀ (i : ℕ) (path path' : List Text), marked[i]? = some (path, false) → out[i]? = some path' → diskPathKey platform path' ∉ seen
  distinct : ∀ (i j : ℕ) (p q p' q' : List Text), i < j → marked[i]? = some (p, false) → marked[j]? = some (q, false) →
    out[i]? = some p' → out[j]? = some q' → diskPathKey platform p' ≠ diskPathKey platform q'
  dir : ∀ (i : ℕ) (path path' : List Text), marked[i]? = some (path, false) → out[i]? = some path' →
    path'.length = path.length ∧ path'.dropLast = path.dropLast
  first : ∀ (i : ℕ) (path : List Text), marked[i]? = some (path, false) → diskPathKey platform path ∉ seen →
    (∀ j < i, ∀ p : List Text, marked[j]? = some (p, false) → diskPathKey platform p ≠ diskPathKey platform path) → out[i]? = some path

namespace Deduped

variable {platform : Platform} {seen : Finset Text} {marked : List (List Text × Bool)} {out : List (List Text)}

theorem nil (platform : Platform) (seen : Finset Text) : Deduped platform seen [] [] where
  length_eq := rfl
  skipped := nofun
  unseen := nofun
  distinct := nofun
  dir := nofun
  first := nofun

/-- A path that is not counted is passed over. -/
theorem skip (h : Deduped platform seen marked out) (path : List Text) :
    Deduped platform seen ((path, true) :: marked) (path :: out) where
  length_eq := congrArg (· + 1) h.length_eq
  skipped := by
    rintro (_ | i) p hp
    · cases hp
      rfl
    · exact h.skipped i p hp
  unseen := by
    rintro (_ | i) p p' hp hp'
    · cases hp
    · exact h.unseen i p p' hp hp'
  distinct := by
    rintro (_ | i) (_ | j) p q p' q' hij hp hq hp' hq'
    · omega
    · cases hp
    · omega
    · exact h.distinct i j p q p' q' (Nat.lt_of_succ_lt_succ hij) hp hq hp' hq'
  dir := by
    rintro (_ | i) p p' hp hp'
    · cases hp
    · exact h.dir i p p' hp hp'
  first := by
    rintro (_ | i) p hp hseen hfirst
    · cases hp
    · exact h.first i p hp hseen fun j hj p' hp' => hfirst (j + 1) (Nat.succ_lt_succ hj) p' hp'

/-- A path goes to one whose key was not seen: to itself if its own was not, else to one in the same directory whose key no other path
that is to come has. -/
theorem step {path path' : List Text} (h : Deduped platform (insert (diskPathKey platform path') seen) marked out)
    (hunseen : diskPathKey platform path' ∉ seen) (hlength : path'.length = path.length) (hdir : path'.dropLast = path.dropLast)
    (hkept : diskPathKey platform path ∉ seen → path' = path)
    (hnew : path' = path ∨ ∀ p, (p, false) ∈ marked → diskPathKey platform p ≠ diskPathKey platform path') :
    Deduped platform seen ((path, false) :: marked) (path' :: out) where
  length_eq := congrArg (· + 1) h.length_eq
  skipped := by
    rintro (_ | i) p hp
    · cases hp
    · exact h.skipped i p hp
  unseen := by
    rintro (_ | i) p p' hp hp'
    · cases hp'
      exact hunseen
    · exact fun hmem => h.unseen i p p' hp hp' (Finset.mem_insert_of_mem hmem)
  distinct := by
    rintro (_ | i) (_ | j) p q p' q' hij hp hq hp' hq'
    · omega
    · cases hp'
      intro heq
      exact h.unseen j q q' hq hq' (heq ▸ Finset.mem_insert_self _ _)
    · omega
    · exact h.distinct i j p q p' q' (Nat.lt_of_succ_lt_succ hij) hp hq hp' hq'
  dir := by
    rintro (_ | i) p p' hp hp'
    · cases hp
      cases hp'
      exact ⟨hlength, hdir⟩
    · exact h.dir i p p' hp hp'
  first := by
    rintro (_ | i) p hp hseen hfirst
    · cases hp
      exact congrArg some (hkept hseen)
    · refine h.first i p hp (fun hmem => ?_) fun j hj p' hp' => hfirst (j + 1) (Nat.succ_lt_succ hj) p' hp'
      rcases Finset.mem_insert.mp hmem with heq | hmem
      · rcases hnew with rfl | hnew
        · exact hfirst 0 (Nat.succ_pos i) path' rfl heq.symm
        · exact hnew p (List.mem_of_getElem? hp) heq
      · exact hseen hmem

end Deduped

/-- The loop over the paths ends, and what it leaves is as it should be: the keys it has seen are taken, and so are those of the paths that
are to come. -/
theorem dedupeFrom_some (marked : List (List Text × Bool)) (taken seen : Finset Text) (nextSuffix : Text → ℕ) (hsub : seen ⊆ taken)
    (hcome : ∀ path, (path, false) ∈ marked → path ≠ [] ∧ diskPathKey (unicodePlatform windows macos tables) path ∈ taken) :
    ∃ out, (∀ fuel, taken.card + marked.length < fuel →
        dedupeFrom (unicodePlatform windows macos tables) fuel marked taken seen nextSuffix = some out) ∧
      Deduped (unicodePlatform windows macos tables) seen marked out := by
  induction marked generalizing taken seen nextSuffix with
  | nil => exact ⟨[], fun fuel _ => rfl, Deduped.nil _ _⟩
  | cons entry rest ih =>
    have hrest : ∀ path, (path, false) ∈ rest → path ≠ [] ∧ diskPathKey (unicodePlatform windows macos tables) path ∈ taken :=
      fun path hp => hcome path (List.mem_cons_of_mem entry hp)
    obtain ⟨path, skipped⟩ := entry
    cases skipped with
    | true =>
      obtain ⟨out, hrun, hout⟩ := ih taken seen nextSuffix hsub hrest
      refine ⟨path :: out, fun fuel hfuel => ?_, hout.skip path⟩
      rw [List.length_cons] at hfuel
      rw [dedupeFrom, if_pos rfl, hrun fuel (by omega)]
      rfl
    | false =>
      obtain ⟨hne, hkey⟩ := hcome path List.mem_cons_self
      by_cases hseen : diskPathKey (unicodePlatform windows macos tables) path ∈ seen
      · obtain ⟨n, hfree, hfound⟩ := @findFree_some windows macos tables path (path.getLast hne) taken
          (nextSuffix (diskPathKey (unicodePlatform windows macos tables) path))
        generalize hcandidate : path.dropLast ++ [numberedName (path.getLast hne) n] = candidate at hfree hfound
        obtain ⟨out, hrun, hout⟩ := ih (insert (diskPathKey (unicodePlatform windows macos tables) candidate) taken)
          (insert (diskPathKey (unicodePlatform windows macos tables) candidate) seen)
          (Function.update nextSuffix (diskPathKey (unicodePlatform windows macos tables) path) (n + 1))
          (Finset.insert_subset_insert _ hsub) fun p hp => ⟨(hrest p hp).1, Finset.mem_insert_of_mem (hrest p hp).2⟩
        have hlast : path.getLast? = some (path.getLast hne) := List.getLast?_eq_some_getLast hne
        have hlength : candidate.length = path.length := by
          rw [← hcandidate, List.length_append, List.length_dropLast, List.length_singleton]
          exact Nat.sub_add_cancel (List.length_pos_iff.mpr hne)
        refine ⟨candidate :: out, fun fuel hfuel => ?_, hout.step (fun hmem => hfree (hsub hmem)) hlength ?_ (fun h => absurd hseen h)
          (Or.inr fun p hp heq => hfree (heq ▸ (hrest p hp).2))⟩
        · rw [List.length_cons] at hfuel
          have hcard := Finset.card_insert_le (diskPathKey (unicodePlatform windows macos tables) candidate) taken
          rw [dedupeFrom, if_neg Bool.false_ne_true]
          dsimp only
          rw [if_neg (not_not.mpr hseen), hlast]
          dsimp only
          rw [hfound fuel (by omega)]
          dsimp only
          rw [hrun fuel (by omega)]
          rfl
        · rw [← hcandidate, List.dropLast_concat]
      · obtain ⟨out, hrun, hout⟩ := ih taken (insert (diskPathKey (unicodePlatform windows macos tables) path) seen) nextSuffix
          (Finset.insert_subset hkey hsub) hrest
        refine ⟨path :: out, fun fuel hfuel => ?_, hout.step hseen rfl rfl (fun _ => rfl) (Or.inl rfl)⟩
        rw [List.length_cons] at hfuel
        rw [dedupeFrom, if_neg Bool.false_ne_true]
        dsimp only
        rw [if_pos hseen, hrun fuel (by omega)]
        rfl

end Metainfo

end Risuko
