import Risuko.Bencode.Value

/-!
# Bencode values

Induction on values, and what the recursive definitions say of lists and dictionaries. Then the three facts about the canonical
form: the encoder writes it, it differs from the value in the order of entries only, and a value is its own canonical form exactly
when its keys are increasing.
-/

namespace Risuko

namespace Bencode

namespace Value

variable {items items' : List (ByteVec × Value)} {v : Value}

/-- Induction on a value, with an hypothesis for everything a container holds. -/
theorem induction {P : Value → Prop} (int : ∀ n, P (.int n)) (bytes : ∀ b, P (.bytes b))
    (list : ∀ items, (∀ v ∈ items, P v) → P (.list items)) (dict : ∀ items, (∀ e ∈ items, P e.2) → P (.dict items))
    (v : Value) : P v := by
  refine @Value.rec P (fun items => ∀ v ∈ items, P v) (fun items => ∀ e ∈ items, P e.2) (fun e => P e.2) int bytes list dict
    ?_ ?_ ?_ ?_ ?_ v
  · intro v hv
    cases hv
  · intro v items hv hitems
    exact List.forall_mem_cons.mpr ⟨hv, hitems⟩
  · intro e he
    cases he
  · intro e items he hitems
    exact List.forall_mem_cons.mpr ⟨he, hitems⟩
  · intro k v hv
    exact hv

/-! ## The definitions on containers -/

theorem renderEntries_eq (items : List (ByteVec × Value)) :
    renderEntries items = items.flatMap (fun e => renderBytes e.1.data ++ e.2.render) := by
  induction items with
  | nil => rfl
  | cons e items ih => simp [renderEntries, ih]

theorem nestingItems_lt {items : List Value} {n : Nat} : nestingItems items < n + 1 ↔ ∀ v ∈ items, v.nesting < n := by
  induction items with
  | nil => simp [nestingItems]
  | cons v items ih =>
    simp only [nestingItems, List.forall_mem_cons, ← ih]
    omega

theorem nestingEntries_lt {n : Nat} :
    nestingEntries items < n + 1 ↔ ∀ e ∈ items, e.2.nesting < n := by
  induction items with
  | nil => simp [nestingEntries]
  | cons e items ih =>
    simp only [nestingEntries, List.forall_mem_cons, ← ih]
    omega

theorem uniqueKeysItems_iff {items : List Value} : UniqueKeysItems items ↔ ∀ v ∈ items, v.UniqueKeys := by
  induction items with
  | nil => simp [UniqueKeysItems]
  | cons v items ih => simp [UniqueKeysItems, ih]

theorem uniqueKeysEntries_iff : UniqueKeysEntries items ↔ ∀ e ∈ items, e.2.UniqueKeys := by
  induction items with
  | nil => simp [UniqueKeysEntries]
  | cons e items ih =>
    simp only [UniqueKeysEntries, List.forall_mem_cons, ih]

theorem keysIncreasingItems_iff {items : List Value} : KeysIncreasingItems items ↔ ∀ v ∈ items, v.KeysIncreasing := by
  induction items with
  | nil => simp [KeysIncreasingItems]
  | cons v items ih => simp [KeysIncreasingItems, ih]

theorem keysIncreasingEntries_iff :
    KeysIncreasingEntries items ↔ ∀ e ∈ items, e.2.KeysIncreasing := by
  induction items with
  | nil => simp [KeysIncreasingEntries]
  | cons e items ih =>
    simp only [KeysIncreasingEntries, List.forall_mem_cons, ih]

theorem canonicalItems_eq (items : List Value) : canonicalItems items = items.map canonical := by
  induction items with
  | nil => rfl
  | cons v items ih => simp [canonicalItems, ih]

theorem canonicalEntries_eq (items : List (ByteVec × Value)) :
    canonicalEntries items = items.map (fun e => (e.1, e.2.canonical)) := by
  induction items with
  | nil => rfl
  | cons e items ih => simp [canonicalEntries, ih]

theorem reorderedItems_iff {items items' : List Value} : ReorderedItems items items' ↔ List.Forall₂ Reordered items items' := by
  constructor
  · intro h
    induction items generalizing items' with
    | nil =>
      cases h
      exact List.Forall₂.nil
    | cons v items ih =>
      cases h with
      | cons hv h => exact List.Forall₂.cons hv (ih h)
  · intro h
    induction h with
    | nil => exact .nil
    | cons hv _ ih => exact .cons hv ih

/-- One entry against another: the same key, and values that differ in order only. -/
def EntryReordered (e e' : ByteVec × Value) : Prop := e.1 = e'.1 ∧ Reordered e.2 e'.2

theorem reorderedEntries_iff :
    ReorderedEntries items items' ↔ List.Forall₂ EntryReordered items items' := by
  constructor
  · intro h
    induction items generalizing items' with
    | nil =>
      cases h
      exact List.Forall₂.nil
    | cons e items ih =>
      cases h with
      | cons k hv h => exact List.Forall₂.cons ⟨rfl, hv⟩ (ih h)
  · intro h
    induction h with
    | nil => exact .nil
    | @cons e e' items items' hv _ ih =>
      obtain ⟨k, v⟩ := e
      obtain ⟨k', v'⟩ := e'
      obtain ⟨hk, hv⟩ := hv
      cases hk
      exact .cons k hv ih

theorem reordered_dict_iff :
    Reordered (.dict items) (.dict items') ↔ ∃ mid, items.Perm mid ∧ List.Forall₂ EntryReordered mid items' := by
  constructor
  · intro h
    cases h with
    | dict hp hf => exact ⟨_, hp, reorderedEntries_iff.mp hf⟩
  · rintro ⟨mid, hp, hf⟩
    exact .dict hp (reorderedEntries_iff.mpr hf)

/-! ## Reordering is an equivalence -/

theorem Reordered.symm {w : Value} (h : Reordered v w) : Reordered w v := by
  induction v using Value.induction generalizing w with
  | int n =>
    cases h
    exact .int n
  | bytes b =>
    cases h
    exact .bytes b
  | list items ih =>
    cases h with
    | @list _ items' h =>
      rw [reorderedItems_iff] at h
      refine .list (reorderedItems_iff.mpr (List.Forall₂.flip ?_))
      rw [List.forall₂_iff_get] at h ⊢
      exact ⟨h.1, fun i hi hi' => ih _ (List.get_mem _ _) (h.2 i hi hi')⟩
  | dict items ih =>
    cases h with
    | @dict _ mid items' hp hf =>
      rw [reorderedEntries_iff] at hf
      have hback : List.Forall₂ EntryReordered items' mid := by
        refine List.Forall₂.flip ?_
        rw [List.forall₂_iff_get] at hf ⊢
        refine ⟨hf.1, fun i hi hi' => ?_⟩
        obtain ⟨hk, hv⟩ := hf.2 i hi hi'
        exact ⟨hk.symm, ih _ (hp.mem_iff.mpr (List.get_mem _ _)) hv⟩
      obtain ⟨mid', hf', hp'⟩ : Relation.Comp List.Perm (List.Forall₂ EntryReordered) items' items := by
        rw [← List.forall₂_comp_perm_eq_perm_comp_forall₂]
        exact ⟨mid, hback, hp.symm⟩
      exact reordered_dict_iff.mpr ⟨mid', hf', hp'⟩

theorem Reordered.trans {u w : Value} (h : Reordered u v) (h' : Reordered v w) : Reordered u w := by
  induction u using Value.induction generalizing v w with
  | int n =>
    cases h
    exact h'
  | bytes b =>
    cases h
    exact h'
  | list items ih =>
    cases h with
    | @list _ items' h =>
      cases h' with
      | @list _ items'' h' =>
        rw [reorderedItems_iff, List.forall₂_iff_get] at h h'
        refine .list (reorderedItems_iff.mpr (List.forall₂_iff_get.mpr ⟨h.1.trans h'.1, fun i hi hi' => ?_⟩))
        have hmid : i < items'.length := h.1 ▸ hi
        exact ih _ (List.get_mem _ _) (h.2 i hi hmid) (h'.2 i hmid hi')
  | dict items ih =>
    cases h with
    | @dict _ mid items' hp hf =>
      cases h' with
      | @dict _ mid' items'' hp' hf' =>
        rw [reorderedEntries_iff] at hf hf'
        obtain ⟨mid₁, hpmid, hfmid⟩ : Relation.Comp List.Perm (List.Forall₂ EntryReordered) mid mid' := by
          rw [← List.forall₂_comp_perm_eq_perm_comp_forall₂]
          exact ⟨items', hf, hp'⟩
        have hperm : items.Perm mid₁ := hp.trans hpmid
        refine reordered_dict_iff.mpr ⟨mid₁, hperm, ?_⟩
        rw [List.forall₂_iff_get] at hfmid hf' ⊢
        refine ⟨hfmid.1.trans hf'.1, fun i hi hi' => ?_⟩
        have hmid : i < mid'.length := hfmid.1 ▸ hi
        obtain ⟨hk, hv⟩ := hfmid.2 i hi hmid
        obtain ⟨hk', hv'⟩ := hf'.2 i hmid hi'
        exact ⟨hk.trans hk', ih _ (hperm.mem_iff.mpr (List.get_mem _ _)) hv hv'⟩

/-! ## The canonical form -/

/-- A value and its canonical form differ in the order of entries only. -/
theorem reordered_canonical (v : Value) : Reordered v v.canonical := by
  induction v using Value.induction with
  | int n => exact .int n
  | bytes b => exact .bytes b
  | list items ih =>
    refine .list (reorderedItems_iff.mpr ?_)
    rw [canonicalItems_eq, List.forall₂_map_right_iff, List.forall₂_same]
    exact ih
  | dict items ih =>
    have hf : List.Forall₂ EntryReordered items (canonicalEntries items) := by
      rw [canonicalEntries_eq, List.forall₂_map_right_iff, List.forall₂_same]
      exact fun e he => ⟨rfl, ih e he⟩
    obtain ⟨mid, hp, hf'⟩ : Relation.Comp List.Perm (List.Forall₂ EntryReordered) items
        ((canonicalEntries items).insertionSort entryLe) := by
      rw [← List.forall₂_comp_perm_eq_perm_comp_forall₂]
      exact ⟨_, hf, (List.perm_insertionSort entryLe _).symm⟩
    exact reordered_dict_iff.mpr ⟨mid, hp, hf'⟩

instance : Std.Total entryLe := ⟨fun e e' => le_total e.1.data e'.1.data⟩

instance : IsTrans (ByteVec × Value) entryLe := ⟨fun _ _ _ h h' => le_trans h h'⟩

theorem keys_canonicalEntries (items : List (ByteVec × Value)) : keys (canonicalEntries items) = keys items := by
  rw [canonicalEntries_eq]
  simp [keys, Function.comp_def]

theorem keys_perm (h : items.Perm items') : (keys items).Perm (keys items') := h.map _

/-- The entries of a dictionary in canonical form are those of the dictionary, in some order. -/
theorem canonical_perm (items : List (ByteVec × Value)) :
    ((canonicalEntries items).insertionSort entryLe).Perm (items.map (fun e => (e.1, e.2.canonical))) := by
  rw [← canonicalEntries_eq]
  exact List.perm_insertionSort entryLe _

/-- With unique keys, the canonical form has its keys in increasing order. -/
theorem keysIncreasing_canonical (h : v.UniqueKeys) : v.canonical.KeysIncreasing := by
  induction v using Value.induction with
  | int n => trivial
  | bytes b => trivial
  | list items ih =>
    have hitems := uniqueKeysItems_iff.mp h
    refine keysIncreasingItems_iff.mpr (fun v hv => ?_)
    rw [canonicalItems_eq] at hv
    obtain ⟨w, hw, rfl⟩ := List.mem_map.mp hv
    exact ih w hw (hitems w hw)
  | dict items ih =>
    obtain ⟨hnodup, hentries⟩ := h
    have hentries := uniqueKeysEntries_iff.mp hentries
    have hsorted := List.pairwise_insertionSort entryLe (canonicalEntries items)
    have hperm := canonical_perm items
    constructor
    · have hnd : (keys ((canonicalEntries items).insertionSort entryLe)).Nodup := by
        rw [(keys_perm (List.perm_insertionSort entryLe _)).nodup_iff, keys_canonicalEntries]
        exact hnodup
      have hle : (keys ((canonicalEntries items).insertionSort entryLe)).Pairwise (· ≤ ·) := List.pairwise_map.mpr hsorted
      exact (hle.and hnd).imp (fun hab => lt_of_le_of_ne hab.1 hab.2)
    · refine keysIncreasingEntries_iff.mpr (fun e he => ?_)
      obtain ⟨e', he', rfl⟩ := List.mem_map.mp (hperm.mem_iff.mp he)
      exact ih e' he' (hentries e' he')

/-- A value with increasing keys is its own canonical form. -/
theorem canonical_eq_self (h : v.KeysIncreasing) : v.canonical = v := by
  induction v using Value.induction with
  | int n => rfl
  | bytes b => rfl
  | list items ih =>
    have hitems := keysIncreasingItems_iff.mp h
    rw [canonical, canonicalItems_eq]
    congr 1
    exact (List.map_congr_left (fun v hv => ih v hv (hitems v hv))).trans (List.map_id _)
  | dict items ih =>
    obtain ⟨hsorted, hentries⟩ := h
    have hentries := keysIncreasingEntries_iff.mp hentries
    have hsame : canonicalEntries items = items := by
      rw [canonicalEntries_eq]
      refine (List.map_congr_left (fun e he => ?_)).trans (List.map_id _)
      rw [ih e he (hentries e he)]
      rfl
    rw [canonical, hsame]
    congr 1
    exact (List.pairwise_map.mp hsorted |>.imp (fun hlt => hlt.le) : items.Pairwise entryLe).insertionSort_eq

theorem uniqueKeys_of_keysIncreasing (h : v.KeysIncreasing) : v.UniqueKeys := by
  induction v using Value.induction with
  | int n => trivial
  | bytes b => trivial
  | list items ih => exact uniqueKeysItems_iff.mpr (fun v hv => ih v hv (keysIncreasingItems_iff.mp h v hv))
  | dict items ih =>
    exact ⟨h.1.imp (fun hlt => ne_of_lt hlt),
      uniqueKeysEntries_iff.mpr (fun e he => ih e he (keysIncreasingEntries_iff.mp h.2 e he))⟩

theorem nesting_canonical (v : Value) : v.canonical.nesting = v.nesting := by
  have hlt : ∀ {a b : Nat}, (∀ n, a < n + 1 ↔ b < n + 1) → a = b := by
    intro a b h
    have ha := (h a).mp (by omega)
    have hb := (h b).mpr (by omega)
    omega
  induction v using Value.induction with
  | int n => rfl
  | bytes b => rfl
  | list items ih =>
    refine hlt (fun n => ?_)
    simp only [canonical, nesting]
    rw [nestingItems_lt, nestingItems_lt, canonicalItems_eq]
    simp only [List.forall_mem_map]
    exact forall₂_congr (fun v hv => by rw [ih v hv])
  | dict items ih =>
    refine hlt (fun n => ?_)
    simp only [canonical, nesting]
    rw [nestingEntries_lt, nestingEntries_lt]
    simp only [(canonical_perm items).mem_iff, List.forall_mem_map]
    exact forall₂_congr (fun e he => by rw [ih e he])

/-! ## The encoder -/

/-- Filling the sorted map succeeds when no key comes twice, and the map then has all the entries. -/
theorem sortedMap_ok (encoded : List (ByteVec × List UInt8)) (sorted : OrdMap (List UInt8) (List UInt8))
    (hnodup : (encoded.map (fun e => e.1.data)).Nodup) (hnew : ∀ e ∈ encoded, sorted.get? e.1.data = none) :
    ∃ m, sortedMap encoded sorted = .ok m ∧ m.entries.Perm (encoded.map (fun e => (e.1.data, e.2)) ++ sorted.entries) := by
  induction encoded generalizing sorted with
  | nil => exact ⟨sorted, rfl, List.Perm.refl _⟩
  | cons e encoded ih =>
    obtain ⟨k, out⟩ := e
    obtain ⟨hk, hnodup⟩ := List.nodup_cons.mp hnodup
    have hnone : sorted.get? k.data = none := hnew _ List.mem_cons_self
    have hnew' : ∀ e ∈ encoded, (sorted.insert k.data out).get? e.1.data = none := by
      intro e he
      have hne : e.1.data ≠ k.data := fun h => hk (List.mem_map.mpr ⟨e, he, h⟩)
      rw [OrdMap.get?_insert_of_ne _ _ hne]
      exact hnew e (List.mem_cons_of_mem _ he)
    obtain ⟨m, hm, hp⟩ := ih (sorted.insert k.data out) hnodup hnew'
    refine ⟨m, ?_, hp.trans ?_⟩
    · unfold sortedMap
      rw [if_neg (by simp [OrdMap.contains, hnone])]
      exact hm
    · have hins := sorted.insert_perm k.data out
      rw [OrdMap.erase_of_get?_none sorted hnone] at hins
      exact (hins.append_left _).trans List.perm_middle

theorem encodeItems_ok {items : List Value} (h : ∀ v ∈ items, encodeToWriter v = .ok v.canonical.render) :
    encodeItems items = .ok (renderItems (canonicalItems items)) := by
  induction items with
  | nil => rfl
  | cons v items ih =>
    obtain ⟨hv, hitems⟩ := List.forall_mem_cons.mp h
    simp [encodeItems, hv, ih hitems, canonicalItems, renderItems]

theorem encodeEntries_ok (h : ∀ e ∈ items, encodeToWriter e.2 = .ok e.2.canonical.render) :
    encodeEntries items = .ok ((canonicalEntries items).map (fun e => (e.1, e.2.render))) := by
  induction items with
  | nil => rfl
  | cons e items ih =>
    obtain ⟨he, hitems⟩ := List.forall_mem_cons.mp h
    simp [encodeEntries, he, ih hitems, canonicalEntries]

/-- The encoder writes the canonical form of a value with unique keys. -/
theorem encodeToWriter_canonical (h : v.UniqueKeys) : encodeToWriter v = .ok v.canonical.render := by
  induction v using Value.induction with
  | int n => rfl
  | bytes b => rfl
  | list items ih =>
    have hitems := uniqueKeysItems_iff.mp h
    simp only [encodeToWriter, encodeItems_ok (fun v hv => ih v hv (hitems v hv)), canonical, render]
  | dict items ih =>
    have hentries := uniqueKeysEntries_iff.mp h.2
    have hsorted := (keysIncreasing_canonical h).1
    generalize hS : (canonicalEntries items).insertionSort entryLe = S at hsorted
    have hperm : S.Perm (canonicalEntries items) := by
      rw [← hS]
      exact List.perm_insertionSort entryLe _
    have hnodup : (((canonicalEntries items).map (fun e => (e.1, e.2.render))).map (fun e => e.1.data)).Nodup := by
      have hkeys : ((canonicalEntries items).map (fun e => (e.1, e.2.render))).map (fun e => e.1.data) =
          keys (canonicalEntries items) := by
        rw [List.map_map]
        rfl
      rw [hkeys, keys_canonicalEntries]
      exact h.1
    obtain ⟨m, hm, hmp⟩ := sortedMap_ok ((canonicalEntries items).map (fun e => (e.1, e.2.render))) OrdMap.empty hnodup
      (fun e _ => rfl)
    -- Two lists of the same entries, both with increasing keys.
    have hsame : m.entries = S.map (fun e => (e.1.data, e.2.render)) := by
      refine @List.Perm.eq_of_pairwise _ (fun a b => a.1 < b.1) _ _ (fun a b _ _ hab hba => absurd (hab.trans hba) (lt_irrefl _)) ?_ ?_ ?_
      · exact List.pairwise_map.mp m.sorted
      · rw [List.pairwise_map]
        exact List.pairwise_map.mp hsorted
      · refine hmp.trans ?_
        have hempty : (OrdMap.empty : OrdMap (List UInt8) (List UInt8)).entries = [] := rfl
        rw [hempty, List.append_nil, List.map_map]
        exact (hperm.map _).symm
    simp only [encodeToWriter, encodeEntries_ok (fun e he => ih e he (hentries e he)), hm, hsame, canonical, hS, render,
      renderEntries_eq, List.flatMap_map]

theorem encodeToVec_canonical (h : v.UniqueKeys) : encodeToVec v = some v.canonical.render := by
  unfold encodeToVec
  rw [encodeToWriter_canonical h]
  rfl

end Value

end Bencode

end Risuko
