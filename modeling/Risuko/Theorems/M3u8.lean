import Risuko.M3u8.Parser
import Mathlib.Tactic

/-!
# The ranges and keys of a playlist

What a turn carries to the next segment is what one finds when one looks back over the segments before it (`LooksBack`), whichever way
offset and length are added. Where no sum reaches `2 ^ 64`, adding with and without a wrap is the same (`mapSegments_congr`).
-/

namespace Risuko

namespace M3u8

variable {resolve : String → Option String} {add add' : ℕ → ℕ → ℕ}

/-- The offset that is carried is the one that the segments before, the last one first, give. -/
def LooksBack (add : ℕ → ℕ → ℕ) (c : Carried) (back : List Segment) : Prop :=
  ∀ url, (if c.url ≠ url then 0 else c.offset) = lookBack add url back

/-- A range without an offset begins where the ranges before it end. -/
theorem LooksBack.nextSegment {c : Carried} {back : List Segment} (h : LooksBack add c back) (seg : MediaSegment) :
    (nextSegment resolve add c seg).2.byteRange = seg.byteRange.map (fun br =>
        ⟨br.length.toNat, (br.offset.map UInt64.toNat).getD (lookBack add (resolveOr resolve seg.uri) back)⟩) ∧
      LooksBack add (nextSegment resolve add c seg).1 ((nextSegment resolve add c seg).2 :: back) := by
  refine ⟨?_, fun url => ?_⟩
  · rw [← h]
    rfl
  · show (if resolveOr resolve seg.uri ≠ url then 0 else _) = if resolveOr resolve seg.uri = url then _ else 0
    by_cases hurl : resolveOr resolve seg.uri = url
    · rw [if_neg (not_not.mpr hurl), if_pos hurl, ← hurl, ← h]
      cases hbr : seg.byteRange with
      | none => simp only [M3u8.nextSegment, hbr, Option.map_none, Option.elim_none]
      | some br => simp only [M3u8.nextSegment, hbr, Option.map_some, Option.elim_some]
    · rw [if_pos hurl, if_neg hurl]

/-- At the first segment only its own key is in force. -/
theorem keyInForce_zero (first : MediaSegment) (rest : List MediaSegment) : keyInForce (first :: rest) 0 = first.key := by
  rw [keyInForce, Nat.zero_add, List.take_succ_cons, List.take_zero, List.filterMap_cons]
  cases first.key with
  | none => rfl
  | some key => rfl

/-- A later key tag hides an earlier one. -/
theorem keyInForce_succ (first : MediaSegment) (rest : List MediaSegment) (i : ℕ) :
    keyInForce (first :: rest) (i + 1) = (keyInForce rest i).or first.key := by
  rw [keyInForce, List.take_succ_cons, List.filterMap_cons]
  cases first.key with
  | none => exact Option.or_none.symm
  | some key =>
    show (key :: List.filterMap _ _).getLast? = (keyInForce rest i).or (some key)
    rw [List.getLast?_cons, ← keyInForce]
    cases keyInForce rest i with
    | none => rfl
    | some later => rfl

/-- Every segment of the result, from the segments before it. -/
theorem getElem?_mapSegments {c : Carried} {back : List Segment} (h : LooksBack add c back) {segments : List MediaSegment} {i : ℕ}
    {seg : MediaSegment} (hseg : segments[i]? = some seg) :
    ∃ s, (mapSegments resolve add c segments)[i]? = some s ∧ s.url = resolveOr resolve seg.uri ∧
      s.encryption = ((keyInForce segments i).map (parseKeyTag resolve)).getD c.encryption ∧
      s.byteRange = seg.byteRange.map fun br =>
        ⟨br.length.toNat, (br.offset.map UInt64.toNat).getD
          (lookBack add s.url (((mapSegments resolve add c segments).take i).reverse ++ back))⟩ := by
  induction segments generalizing c back i with
  | nil => cases hseg
  | cons first rest ih =>
    obtain ⟨hrange, hnext⟩ := @LooksBack.nextSegment resolve _ _ _ h first
    cases i with
    | zero =>
      cases hseg
      refine ⟨_, rfl, rfl, ?_, hrange⟩
      rw [keyInForce_zero]
      rfl
    | succ i =>
      obtain ⟨s, hs, hurl, hkey, hbr⟩ := ih hnext hseg
      refine ⟨s, hs, hurl, ?_, ?_⟩
      · rw [hkey, keyInForce_succ]
        cases keyInForce rest i with
        | none => rfl
        | some later => rfl
      · rw [hbr, mapSegments, List.take_succ_cons, List.reverse_cons, List.append_assoc, List.singleton_append]

/-- Every segment of the playlist gives one. -/
theorem length_mapSegments (c : Carried) (segments : List MediaSegment) : (mapSegments resolve add c segments).length = segments.length := by
  induction segments generalizing c with
  | nil => rfl
  | cons seg rest ih => rw [mapSegments, List.length_cons, List.length_cons, ih]

/-- Two additions that agree on the ranges of the playlist give the same segments. -/
theorem mapSegments_congr {c : Carried} {segments : List MediaSegment}
    (h : ∀ s ∈ mapSegments resolve add c segments, ∀ br ∈ s.byteRange, add br.offset br.length = add' br.offset br.length) :
    mapSegments resolve add c segments = mapSegments resolve add' c segments := by
  induction segments generalizing c with
  | nil => rfl
  | cons seg rest ih =>
    have hfirst : (nextSegment resolve add c seg).1 = (nextSegment resolve add' c seg).1 := by
      have hbr := h _ (List.mem_cons_self ..)
      unfold nextSegment at hbr ⊢
      dsimp only at hbr ⊢
      cases hrange : seg.byteRange with
      | none => rfl
      | some br =>
        rw [hrange] at hbr
        rw [Option.map_some, Option.elim_some, Option.elim_some, hbr _ rfl]
    rw [mapSegments, mapSegments, ← hfirst, ih fun s hs => h s (List.mem_cons_of_mem _ hs)]
    rfl

theorem looksBack_start : LooksBack add ⟨none, 0, ""⟩ [] := fun _ => ite_self 0

/-- A key that is supported gives no encryption if and only if its method is `NONE`. -/
theorem parseKeyTag_eq_none {key : Key} (h : unsupportedKey key = none) : parseKeyTag resolve key = none ↔ key.method = .none := by
  unfold unsupportedKey at h
  unfold parseKeyTag
  cases hmethod : key.method with
  | none => exact ⟨fun _ => rfl, fun _ => rfl⟩
  | aes128 =>
    rw [hmethod] at h
    cases huri : key.uri with
    | none =>
      rw [huri] at h
      dsimp only at h
      split at h
      · cases h
      · rw [Option.isNone_none, if_pos rfl] at h
        cases h
    | some uri => simp only [Option.map_some, reduceCtorEq]
  | sampleAes =>
    rw [hmethod] at h
    cases h
  | other method =>
    rw [hmethod] at h
    cases h

/-- No key that is in force in a playlist that is let through is unsupported. -/
theorem supported_of_checkSupportedKeys {segments : List MediaSegment} (h : checkSupportedKeys segments = .ok ()) {i : ℕ} {key : Key}
    (hkey : keyInForce segments i = some key) : unsupportedKey key = none := by
  unfold checkSupportedKeys at h
  split at h
  · cases h
  · rename_i hnone
    refine List.findSome?_eq_none_iff.mp hnone key ?_
    obtain ⟨seg, hseg, hhas⟩ := List.mem_filterMap.mp (List.mem_of_getLast? hkey)
    exact List.mem_filterMap.mpr ⟨seg, List.mem_of_mem_take hseg, hhas⟩

/-- What the parser returns are the segments of the playlist, with keys it supports. -/
theorem parseMedia_ok {media : MediaPlaylist} {parsed : ParsedMedia} (h : parseMedia resolve media = .ok parsed) :
    checkSupportedKeys media.segments = .ok () ∧ parsed.segments = mapSegments resolve wrappingAdd ⟨none, 0, ""⟩ media.segments := by
  unfold parseMedia at h
  split at h
  · cases h
  split at h
  · cases h
  · rename_i hcheck
    cases h
    exact ⟨hcheck, rfl⟩

/-- What a playlist promises about one of its segments, the `i`th. -/
structure SegmentResolves (resolve : String → Option String) (media : MediaPlaylist) (segments : List Segment) (i : ℕ) (seg : MediaSegment)
    (s : Segment) : Prop where
  url : s.url = resolveOr resolve seg.uri
  key : s.encryption = (keyInForce media.segments i).bind (parseKeyTag resolve)
  plain : s.encryption = none ↔ ∀ key ∈ keyInForce media.segments i, key.method = .none
  unranged : seg.byteRange = none → s.byteRange = none
  explicit : ∀ br o, seg.byteRange = some br → br.offset = some o → s.byteRange = some ⟨br.length.toNat, o.toNat⟩
  /-- Without an offset the range goes on where the last range of the run of segments with this URL ended. -/
  implicit : ∀ br, seg.byteRange = some br → br.offset = none →
    s.byteRange = some ⟨br.length.toNat, lookBack (· + ·) s.url (segments.take i).reverse⟩
  fits : ∀ br ∈ s.byteRange, br.offset + br.length < 2 ^ 64
  /-- The first and the last byte of the range; a range of no bytes has no header. -/
  header : ∀ br ∈ s.byteRange, s.rangeHeader = if 0 < br.length then some (br.offset, br.offset + br.length - 1) else none

/-- A playlist that is accepted has its ranges and keys as it says if and only if no range, in exact numbers, ends at `2 ^ 64` or behind it. -/
theorem segments_resolve {media : MediaPlaylist} {parsed : ParsedMedia} (h : parseMedia resolve media = .ok parsed) :
    (∀ i seg, media.segments[i]? = some seg → ∃ s, parsed.segments[i]? = some s ∧ SegmentResolves resolve media parsed.segments i seg s) ↔
      ∀ s ∈ exactSegments resolve media, ∀ br ∈ s.byteRange, br.offset + br.length < 2 ^ 64 := by
  obtain ⟨hcheck, hsegments⟩ := parseMedia_ok h
  constructor
  · intro hall
    have hfits : ∀ s ∈ parsed.segments, ∀ br ∈ s.byteRange, br.offset + br.length < 2 ^ 64 := by
      intro s hs
      obtain ⟨i, hi⟩ := List.mem_iff_getElem?.mp hs
      have hlt : i < media.segments.length := by
        rw [← @length_mapSegments resolve wrappingAdd ⟨none, 0, ""⟩, ← hsegments]
        exact (List.getElem?_eq_some_iff.mp hi).1
      obtain ⟨s', hs', hresolves⟩ := hall i _ (List.getElem?_eq_getElem hlt)
      rw [hi] at hs'
      cases hs'
      exact hresolves.fits
    rw [hsegments] at hfits
    rwa [exactSegments, ← mapSegments_congr fun s hs br hbr => Nat.mod_eq_of_lt (hfits s hs br hbr)]
  · intro hexact i seg hseg
    have hsame : parsed.segments = exactSegments resolve media := by
      rw [hsegments]
      exact (mapSegments_congr fun s hs br hbr => (Nat.mod_eq_of_lt (hexact s hs br hbr)).symm).symm
    obtain ⟨s, hs, hurl, hkey, hrange⟩ := @getElem?_mapSegments resolve (· + ·) _ _ looksBack_start _ _ _ hseg
    rw [List.append_nil] at hrange
    have hfits : ∀ br ∈ s.byteRange, br.offset + br.length < 2 ^ 64 := hexact s (List.mem_of_getElem? hs)
    rw [hsame]
    have hforce : s.encryption = (keyInForce media.segments i).bind (parseKeyTag resolve) := by
      rw [hkey]
      cases keyInForce media.segments i with
      | none => rfl
      | some key => rfl
    refine ⟨s, hs, ?_⟩
    exact
      { url := hurl
        key := hforce
        plain := by
          rw [hforce]
          cases hin : keyInForce media.segments i with
          | none => simp only [Option.bind_none, Option.mem_def, reduceCtorEq, false_implies, implies_true]
          | some key =>
            rw [Option.bind_some, parseKeyTag_eq_none (supported_of_checkSupportedKeys hcheck hin)]
            simp only [Option.mem_def, Option.some.injEq, forall_eq']
        unranged := fun hbr => by
          rw [hrange, hbr]
          rfl
        explicit := fun br o hbr ho => by
          rw [hrange, hbr, Option.map_some, ho]
          rfl
        implicit := fun br hbr ho => by
          rw [hrange, hbr, Option.map_some, ho]
          rfl
        fits := hfits
        header := fun br hbr => by
          have hlt := hfits br hbr
          unfold Segment.rangeHeader
          rw [Option.mem_def.mp hbr, Option.bind_some, saturatingAdd, min_eq_left (by omega)] }

/-- Ranges of one file, by length and offset. -/
def rangedPlaylist (lengths : List (UInt64 × Option UInt64)) : MediaPlaylist :=
  ⟨0, lengths.map fun l => ⟨"a.ts", some ⟨l.1, l.2⟩, none, false⟩, true⟩

/-- The second range goes on behind the first. -/
theorem segments_resolve_two : ∃ parsed, parseMedia some (rangedPlaylist [(3, some 10), (5, none)]) = .ok parsed ∧
    ∀ i seg, (rangedPlaylist [(3, some 10), (5, none)]).segments[i]? = some seg →
      ∃ s, parsed.segments[i]? = some s ∧ SegmentResolves some (rangedPlaylist [(3, some 10), (5, none)]) parsed.segments i seg s := by
  have hall : ((exactSegments some (rangedPlaylist [(3, some 10), (5, none)])).all fun s =>
      s.byteRange.all fun br => decide (br.offset + br.length < 2 ^ 64)) = true := by decide +kernel
  refine ⟨_, rfl, (@segments_resolve some _ _ rfl).mpr fun s hs br hbr => ?_⟩
  have hs := List.all_eq_true.mp hall s hs
  rw [Option.mem_def.mp hbr] at hs
  exact of_decide_eq_true hs

/-- A range that ends behind `2 ^ 64`. -/
theorem segments_wrap : ¬ ∀ (resolve : String → Option String) (media : MediaPlaylist) (parsed : ParsedMedia), parseMedia resolve media = .ok parsed →
    ∀ i seg, media.segments[i]? = some seg → ∃ s, parsed.segments[i]? = some s ∧ SegmentResolves resolve media parsed.segments i seg s := by
  intro hclaim
  obtain ⟨s, hs, hresolves⟩ := hclaim some (rangedPlaylist [(18446744073709551615, some 10), (5, none)]) _ rfl 0 _ rfl
  cases hs
  exact absurd (hresolves.fits _ rfl) (by decide)

end M3u8

end Risuko
