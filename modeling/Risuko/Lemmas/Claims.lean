import Risuko.Lib.Lists
import Risuko.Magnet.Claims

/-!
# What a share of metadata counts

The bytes that assemblies reserve are the bytes of their blocks, and the budget counts those of all of them (`Accounts`). A counter of an assembly is
never above the number of claims that fetches still have to undo (`Backed`), as long as no fetch loses what it has claimed. What a fetch claims is
missing, and claimed once (`claimable_spec`).
-/

namespace Risuko

namespace Assembly

theorem missing_iff {a : Assembly} {i : Nat} : a.missing i = true ↔ a.pieces[i]? = some none := by simp [missing]

/-- The loop adds pieces that are wanted, each once, until there are enough or all of them are there. -/
theorem claimLoop_spec (n : Nat) (want : Nat → Bool) (L out : List Nat) :
    (∀ i ∈ out, i ∈ claimLoop n want L out) ∧ (∀ i ∈ claimLoop n want L out, i ∈ out ∨ want i = true)
      ∧ (out.Nodup → (claimLoop n want L out).Nodup)
      ∧ (n ≤ (claimLoop n want L out).length ∨ ∀ i ∈ L, want i = true → i ∈ claimLoop n want L out) := by
  induction L generalizing out with
  | nil => exact ⟨fun i h => h, fun i h => .inl h, fun h => h, .inr fun i h => absurd h List.not_mem_nil⟩
  | cons j L ih =>
    unfold claimLoop
    by_cases hn : n ≤ out.length
    · rw [if_pos hn]
      exact ⟨fun i h => h, fun i h => .inl h, fun h => h, .inl hn⟩
    · rw [if_neg hn]
      by_cases hj : (want j && !(decide (j ∈ out))) = true
      · rw [if_pos hj]
        rw [Bool.and_eq_true, Bool.not_eq_true', decide_eq_false_iff_not] at hj
        obtain ⟨hsub, hfrom, hnodup, hfull⟩ := ih (out ++ [j])
        refine ⟨fun i hi => hsub i (List.mem_append_left _ hi), fun i hi => ?_, fun hd => ?_, ?_⟩
        · rcases hfrom i hi with h | h
          · rcases List.mem_append.mp h with h | h
            · exact .inl h
            · rw [List.mem_singleton] at h
              subst h
              exact .inr hj.1
          · exact .inr h
        · refine hnodup (List.nodup_append.mpr ⟨hd, List.nodup_singleton j, fun a ha b hb he => hj.2 ?_⟩)
          rw [List.mem_singleton] at hb
          rw [← hb, ← he]
          exact ha
        · rcases hfull with h | h
          · exact .inl h
          · refine .inr fun i hi hw => ?_
            rcases List.mem_cons.mp hi with rfl | hi
            · exact hsub i (List.mem_append_right _ List.mem_cons_self)
            · exact h i hi hw
      · rw [if_neg hj]
        obtain ⟨hsub, hfrom, hnodup, hfull⟩ := ih out
        refine ⟨hsub, hfrom, hnodup, ?_⟩
        rcases hfull with h | h
        · exact .inl h
        · refine .inr fun i hi hw => ?_
          rcases List.mem_cons.mp hi with rfl | hi
          · refine hsub i ?_
            simpa [hw] using hj
          · exact h i hi hw

/-- What is claimed is missing and not skipped, and claimed once. -/
theorem claimable_spec (a : Assembly) (n : Nat) (skip : List Nat) :
    (∀ i ∈ a.claimable n skip, a.missing i = true ∧ i ∉ skip) ∧ (a.claimable n skip).Nodup := by
  unfold claimable claimPass
  refine ⟨fun i hi => ?_, (claimLoop_spec ..).2.2.1 ((claimLoop_spec ..).2.2.1 List.nodup_nil)⟩
  have hc : (a.missing i && !(decide (i ∈ skip))) = true := by
    rcases (claimLoop_spec ..).2.1 i hi with h | h
    · rcases (claimLoop_spec ..).2.1 i h with h | h
      · exact absurd h List.not_mem_nil
      · exact (Bool.and_eq_true_iff.mp h).1
    · exact (Bool.and_eq_true_iff.mp h).1
  simpa using hc

/-- The bytes of the blocks that are there. -/
def storedBytes (a : Assembly) : ℕ := (a.pieces.map fun p => p.elim 0 List.length).sum

/-- How often a piece is claimed. -/
def claimedAt (a : Assembly) (idx : ℕ) : ℕ := (a.claimed.getD idx 0).toNat

theorem storedBytes_new (size : ℕ) : (new size).storedBytes = 0 := by
  simp [storedBytes, new]

theorem storedBytes_reset (a : Assembly) : a.reset.storedBytes = 0 := by
  simp [storedBytes, reset]

theorem claimedAt_new (size idx : ℕ) : (new size).claimedAt idx = 0 := by
  rw [claimedAt, new, List.getD_eq_getElem?_getD, List.getElem?_replicate]
  split <;> rfl

theorem storedBytes_store {a a' : Assembly} {free idx taken : ℕ} {block : List UInt8} (h : a.store free idx block = some (a', taken))
    (hheld : a.held = a.storedBytes) : a'.held = a'.storedBytes ∧ a'.held = a.held + taken ∧ (taken = 0 ∨ taken ≤ free) := by
  unfold store at h
  split at h
  · rename_i hmissing
    split at h
    · rename_i hfits
      cases h
      have hsum := sum_map_set (fun p : Option (List UInt8) => p.elim 0 List.length) (missing_iff.mp hmissing) (some block)
      refine ⟨?_, rfl, .inr hfits⟩
      rw [hheld]
      simp only [Option.elim_none, Option.elim_some, add_zero] at hsum
      exact hsum.symm
    · cases h
  · cases h
    exact ⟨hheld, rfl, .inl rfl⟩

theorem claimed_store {a a' : Assembly} {free idx taken : ℕ} {block : List UInt8} (h : a.store free idx block = some (a', taken)) :
    a'.claimed = a.claimed := by
  unfold store at h
  split at h
  · split at h
    · cases h
      rfl
    · cases h
  · cases h
    rfl

theorem claimedAt_modify (claimed : List UInt8) (j : ℕ) (g : UInt8 → UInt8) (idx : ℕ) (hg : g 0 = 0) :
    (claimed.modify j g).getD idx 0 = if j = idx then g (claimed.getD idx 0) else claimed.getD idx 0 := by
  rw [List.getD_eq_getElem?_getD, List.getElem?_modify, List.getD_eq_getElem?_getD]
  split
  · rename_i heq
    subst heq
    cases claimed[j]? with
    | none => exact hg.symm
    | some c => rfl
  · cases claimed[idx]? <;> rfl

/-- Undoing a claim takes one off the counter. -/
theorem claimedAt_unclaim (a : Assembly) (j idx : ℕ) : (a.unclaim j).claimedAt idx = if j = idx then a.claimedAt idx - 1 else a.claimedAt idx := by
  rw [claimedAt, unclaim, claimedAt_modify _ _ _ _ rfl, claimedAt]
  split
  · split
    · rename_i hzero
      rw [hzero]
      rfl
    · rename_i hpos
      have hlt : 1 ≤ a.claimed.getD idx 0 := by
        rw [UInt8.le_iff_toNat_le]
        have hne : (a.claimed.getD idx 0).toNat ≠ 0 := fun h => hpos (UInt8.toNat_inj.mp h)
        show 1 ≤ _
        omega
      rw [UInt8.toNat_sub_of_le _ _ hlt]
      rfl
  · rfl

/-- A claim raises a counter by one at most. -/
theorem claimedAt_raise (claimed : List UInt8) (j idx : ℕ) :
    ((claimed.modify j fun c => if c = 255 then 255 else c + 1).getD idx 0).toNat ≤ (claimed.getD idx 0).toNat + if j = idx then 1 else 0 := by
  rw [List.getD_eq_getElem?_getD, List.getElem?_modify, List.getD_eq_getElem?_getD]
  split
  · cases claimed[idx]? with
    | none => exact Nat.zero_le _
    | some c =>
      show (if c = 255 then (255 : UInt8) else c + 1).toNat ≤ c.toNat + 1
      split
      · rename_i hc
        rw [hc]
        exact Nat.le_succ _
      · rw [UInt8.toNat_add]
        exact Nat.mod_le _ _
  · cases claimed[idx]? <;> exact le_rfl

theorem claimedAt_claim (a : Assembly) (n : ℕ) (skip : List ℕ) (idx : ℕ) :
    (a.claim n skip).2.claimedAt idx ≤ a.claimedAt idx + (a.claim n skip).1.count idx := by
  rw [claimedAt, claimedAt]
  unfold claim
  dsimp only
  generalize a.claimable n skip = out
  generalize a.claimed = claimed
  induction out generalizing claimed with
  | nil => exact le_rfl
  | cons j out ih =>
    rw [List.foldl_cons, List.count_cons]
    have hraise := claimedAt_raise claimed j idx
    have hrest := ih (claimed.modify j fun c => if c = 255 then 255 else c + 1)
    simp only [beq_iff_eq]
    omega

end Assembly

namespace Claims

open Assembly

/-- How often a fetch has claimed a piece and has still to undo it. -/
def Fetch.claims (x : Fetch) (idx : ℕ) : ℕ := (x.mine ++ x.place.pending).count idx

/-- The guard is gone, so there is nothing in it. -/
def Place.unguarded : Place → Bool
  | assembling | resetting | replacing | layers | ended => true
  | _ => false

namespace Share

def claimsOn (s : Share) (a idx : ℕ) : ℕ := (s.fetches.map fun x => if x.assembly = a then x.claims idx else 0).sum

def claimedAt (s : Share) (a idx : ℕ) : ℕ := (s.assemblies[a]?.map fun x => x.claimedAt idx).getD 0

/-- The budget counts what the assemblies have reserved, which is what they store. -/
structure Accounts (s : Share) : Prop where
  held : ∀ a ∈ s.assemblies, a.held = a.storedBytes
  used : s.used = (s.assemblies.map (·.held)).sum
  limit : s.used ≤ s.limit

/-- Behind every claim that is counted there is a fetch that will undo it. -/
structure Backed (s : Share) : Prop where
  counts : ∀ a idx, s.claimedAt a idx ≤ s.claimsOn a idx
  nodup : ∀ x ∈ s.fetches, (x.mine ++ x.place.pending).Nodup
  unguarded : ∀ x ∈ s.fetches, x.place.unguarded = true → x.mine = []

variable {s s' : Share} {f : ℕ} {x x' : Fetch} {a a' : Assembly}

/-! ## Bytes -/

theorem Accounts.replace (h : Accounts s) {i used : ℕ} (hi : s.assemblies[i]? = some a) (hheld : a'.held = a'.storedBytes)
    (hused : used + a.held = s.used + a'.held) (hlimit : used ≤ s.limit) {current : Option ℕ} {live : List ℕ} {fetches : List Fetch} :
    Accounts ⟨s.limit, s.assemblies.set i a', current, live, used, fetches⟩ where
  held b hb := by
    rcases List.mem_or_eq_of_mem_set hb with hb | rfl
    · exact h.held b hb
    · exact hheld
  used := by
    have hsum := sum_map_set (·.held) hi a'
    have := h.used
    show used = ((s.assemblies.set i a').map (·.held)).sum
    omega
  limit := hlimit

/-- An operation that touches no block. -/
theorem Accounts.put_same (h : Accounts s) (ha : s.assemblies[x.assembly]? = some a) (hsame : x'.assembly = x.assembly)
    (hheld : a'.held = a.held) (hstored : a'.storedBytes = a.storedBytes) : Accounts (s.put f x' a') := by
  unfold put
  rw [hsame]
  refine h.replace ha ?_ (by rw [hheld]) h.limit
  rw [hheld, hstored, h.held a (List.mem_of_getElem? ha)]

/-- The blocks of an assembly are given back. -/
theorem Accounts.reset (h : Accounts s) {i : ℕ} (hi : s.assemblies[i]? = some a) {current : Option ℕ} {live : List ℕ} {fetches : List Fetch} :
    Accounts ⟨s.limit, s.assemblies.set i a.reset, current, live, s.used - a.held, fetches⟩ := by
  have hle : a.held ≤ s.used := by
    rw [h.used]
    exact List.single_le_sum (fun _ _ => Nat.zero_le _) _ (List.mem_map.mpr ⟨a, List.mem_of_getElem? hi, rfl⟩)
  refine h.replace hi (storedBytes_reset a).symm ?_ ((Nat.sub_le _ _).trans h.limit)
  show s.used - a.held + a.held = s.used + 0
  omega

theorem Accounts.privateAssembly (h : Accounts s) (size : ℕ) : Accounts (s.privateAssembly size).1 where
  held b hb := by
    rcases List.mem_append.mp hb with hb | hb
    · exact h.held b hb
    · rw [List.mem_singleton.mp hb]
      exact (storedBytes_new size).symm
  used := by
    show s.used = ((s.assemblies ++ [Assembly.new size]).map (·.held)).sum
    rw [List.map_append, List.sum_append, ← h.used]
    rfl
  limit := h.limit

theorem Accounts.of_fetches (h : Accounts s) (fetches : List Fetch) : Accounts { s with fetches := fetches } := ⟨h.held, h.used, h.limit⟩

theorem Accounts.attach (h : Accounts s) (size : ℕ) : Accounts (s.attach size).1 := by
  unfold Share.attach
  split
  · split
    · exact h
    · exact h.privateAssembly size
  · exact ⟨(h.privateAssembly size).held, (h.privateAssembly size).used, (h.privateAssembly size).limit⟩

theorem sum_sweep (alive : ℕ → Bool) (L : List Assembly) :
    (L.mapIdx fun i a => if alive i then 0 else a.held).sum + ((L.mapIdx fun i a => if alive i then a else a.reset).map (·.held)).sum =
      (L.map (·.held)).sum := by
  induction L generalizing alive with
  | nil => rfl
  | cons a L ih =>
    have hrest := ih fun i => alive (i + 1)
    simp only [List.mapIdx_cons, List.map_cons, List.sum_cons]
    have hfirst : (if alive 0 then 0 else a.held) + (if alive 0 then a else a.reset).held = a.held := by
      split <;> simp [Assembly.reset]
    omega

/-- What nothing holds any more is given back. -/
theorem Accounts.sweep (h : Accounts s) : Accounts s.sweep where
  held b hb := by
    obtain ⟨i, hi, rfl⟩ := List.mem_mapIdx.mp hb
    split
    · exact h.held _ (List.getElem_mem hi)
    · exact (storedBytes_reset _).symm
  used := by
    have hsum := sum_sweep s.alive s.assemblies
    have := h.used
    show s.used - _ = _
    simp only [Share.sweep]
    omega
  limit := (Nat.sub_le _ _).trans h.limit

theorem Accounts.advance {verified : List UInt8 → Bool} (h : Accounts s) (ha : s.assemblies[x.assembly]? = some a)
    (hs : s.advance verified f x a = some s') : Accounts s' := by
  unfold Share.advance at hs
  split at hs
  case h_6 idx block _ =>
    split at hs
    · rename_i b taken hstore
      obtain ⟨hheld, htaken, hfits⟩ := storedBytes_store hstore (h.held a (List.mem_of_getElem? ha))
      have hlimit := h.limit
      have hused : s.used + taken + a.held = s.used + b.held := by omega
      have hroom : s.used + taken ≤ s.limit := by omega
      cases hs
      exact h.replace ha hheld hused hroom
    · cases hs
      exact h.put_same ha rfl rfl rfl
  case h_10 idx block victim _ =>
    split at hs
    · rename_i v hv
      cases hs
      exact h.reset hv
    · cases hs
  case h_11 idx _ =>
    split at hs <;> cases hs <;> exact h.put_same ha rfl rfl rfl
  case h_12 ends _ =>
    split at hs <;> cases hs <;> exact h.put_same ha rfl rfl rfl
  case h_13 =>
    split at hs <;> cases hs <;> exact h.put_same ha rfl rfl rfl
  case h_14 =>
    cases hs
    exact h.reset ha
  case h_15 =>
    cases hs
    exact (h.privateAssembly x.totalSize).of_fetches _
  all_goals
    cases hs
    try exact h.put_same ha rfl rfl rfl

/-- Every step keeps the counter that of the assemblies. -/
theorem Accounts.step {verified : List UInt8 → Bool} (h : Accounts s) {act : Action} (hs : s.step verified act = some s') : Accounts s' := by
  obtain ⟨after, hperform, rfl⟩ := Option.map_eq_some_iff.mp hs
  refine Accounts.sweep ?_
  unfold perform at hperform
  split at hperform
  · split at hperform
    · cases hperform
    · cases hperform
      exact (h.attach _).of_fetches _
  · obtain ⟨x, -, hx⟩ := Option.bind_eq_some_iff.mp hperform
    obtain ⟨a, ha, hadvance⟩ := Option.bind_eq_some_iff.mp hx
    exact h.advance ha hadvance
  · obtain ⟨x, -, hx⟩ := Option.bind_eq_some_iff.mp hperform
    obtain ⟨x', -, rfl⟩ := Option.map_eq_some_iff.mp hx
    exact h.of_fetches _
  · obtain ⟨x, -, hx⟩ := Option.bind_eq_some_iff.mp hperform
    obtain ⟨a, -, ha⟩ := Option.bind_eq_some_iff.mp hx
    split at ha
    · cases ha
      exact h.of_fetches _
    · cases ha
  · obtain ⟨x, -, hx⟩ := Option.bind_eq_some_iff.mp hperform
    obtain ⟨x', -, rfl⟩ := Option.map_eq_some_iff.mp hx
    exact h.of_fetches _

/-! ## Claims -/

theorem claims_le (hx : s.fetches[f]? = some x) (idx : ℕ) : x.claims idx ≤ s.claimsOn x.assembly idx := by
  refine List.single_le_sum (fun _ _ => Nat.zero_le _) _ (List.mem_map.mpr ⟨x, List.mem_of_getElem? hx, ?_⟩)
  exact if_pos rfl

/-- One fetch changes, and the counters of its assembly with it. -/
theorem Backed.change (h : Backed s) (hx : s.fetches[f]? = some x) (hfetches : s'.fetches = s.fetches.set f x')
    (hsame : x'.assembly = x.assembly)
    (hown : ∀ idx n, s.claimedAt x.assembly idx ≤ n + x.claims idx → s'.claimedAt x.assembly idx ≤ n + x'.claims idx)
    (hother : ∀ a ≠ x.assembly, ∀ idx, s'.claimedAt a idx = s.claimedAt a idx) (hnodup : (x'.mine ++ x'.place.pending).Nodup)
    (hunguarded : x'.place.unguarded = true → x'.mine = []) : Backed s' where
  counts b idx := by
    have hsum := sum_map_set (fun x : Fetch => if x.assembly = b then x.claims idx else 0) hx x'
    rw [← hfetches] at hsum
    change s'.claimsOn b idx + _ = s.claimsOn b idx + _ at hsum
    have hcounts := h.counts b idx
    rw [hsame] at hsum
    by_cases hb : x.assembly = b
    · subst hb
      rw [if_pos rfl, if_pos rfl] at hsum
      have hle := claims_le hx idx
      have hnow := hown idx (s.claimsOn x.assembly idx - x.claims idx) (by omega)
      omega
    · rw [if_neg hb, if_neg hb] at hsum
      rw [hother b (Ne.symm hb)]
      omega
  nodup y hy := by
    rw [hfetches] at hy
    rcases List.mem_or_eq_of_mem_set hy with hy | rfl
    · exact h.nodup y hy
    · exact hnodup
  unguarded y hy hplace := by
    rw [hfetches] at hy
    rcases List.mem_or_eq_of_mem_set hy with hy | rfl
    · exact h.unguarded y hy hplace
    · exact hunguarded hplace

/-- Counters of all assemblies are as before. -/
theorem claimedAt_set (hi : s.assemblies[x.assembly]? = some a) (b idx : ℕ) :
    ((s.assemblies.set x.assembly a')[b]?.map fun x => x.claimedAt idx).getD 0 =
      if b = x.assembly then a'.claimedAt idx else s.claimedAt b idx := by
  have hlt := (List.getElem?_eq_some_iff.mp hi).1
  rw [List.getElem?_set]
  by_cases hb : b = x.assembly
  · rw [if_pos hb.symm, if_pos (hb ▸ hlt), if_pos hb]
    rfl
  · rw [if_neg (Ne.symm hb), if_neg hb]
    rfl

theorem Backed.put (h : Backed s) (used : ℕ) (hx : s.fetches[f]? = some x) (ha : s.assemblies[x.assembly]? = some a) (hsame : x'.assembly = x.assembly)
    (hown : ∀ idx n, a.claimedAt idx ≤ n + x.claims idx → a'.claimedAt idx ≤ n + x'.claims idx)
    (hnodup : (x'.mine ++ x'.place.pending).Nodup) (hunguarded : x'.place.unguarded = true → x'.mine = []) :
    Backed ({ s with used := used }.put f x' a') := by
  have hclaimed : s.claimedAt x.assembly = a.claimedAt := by
    funext idx
    rw [claimedAt, ha]
    rfl
  have hfetches : ({ s with used := used }.put f x' a').fetches = s.fetches.set f x' := rfl
  refine h.change hx hfetches hsame (fun idx n hle => ?_) (fun b hb idx => ?_) hnodup hunguarded
  · show ((s.assemblies.set x'.assembly a')[x.assembly]?.map _).getD 0 ≤ _
    rw [hsame, claimedAt_set ha, if_pos rfl]
    exact hown idx n (by rwa [hclaimed] at hle)
  · show ((s.assemblies.set x'.assembly a')[b]?.map _).getD 0 = _
    rw [hsame, claimedAt_set ha, if_neg hb]

/-- A fetch goes on with the same claims. -/
theorem Backed.goesOn (h : Backed s) (used : ℕ) (hx : s.fetches[f]? = some x) (ha : s.assemblies[x.assembly]? = some a)
    (hsame : x'.assembly = x.assembly)
    (hclaimed : a'.claimed = a.claimed) (hmine : x'.mine = x.mine) (hpending : x'.place.pending = x.place.pending)
    (hunguarded : x'.place.unguarded = true → x.mine = []) : Backed ({ s with used := used }.put f x' a') := by
  refine h.put used hx ha hsame (fun idx n hle => ?_) ?_ fun hplace => hmine.trans (hunguarded hplace)
  · rw [Assembly.claimedAt, hclaimed]
    rw [Fetch.claims, hmine, hpending]
    exact hle
  · rw [hmine, hpending]
    exact h.nodup x (List.mem_of_getElem? hx)

theorem unguarded_of_ne (hne : x'.place.unguarded = false) : x'.place.unguarded = true → x.mine = [] := by
  intro h
  rw [hne] at h
  cases h

/-- A piece leaves the guard, and its counter goes down. -/
theorem Backed.undo (h : Backed s) (x' : Fetch) (hx : s.fetches[f]? = some x) (ha : s.assemblies[x.assembly]? = some a)
    (hsame : x'.assembly = x.assembly)
    {idx : ℕ} (hmine : x.mine.Perm (idx :: x'.mine)) (hpending : x.place.pending = []) (hpending' : x'.place.pending = [])
    (hunguarded : x'.place.unguarded = true → x'.mine = []) : Backed (s.put f x' (a.unclaim idx)) := by
  have hnodup := h.nodup x (List.mem_of_getElem? hx)
  rw [hpending, List.append_nil] at hnodup
  refine h.put s.used hx ha hsame (fun j n hle => ?_) ?_ hunguarded
  · rw [Fetch.claims, hpending, List.append_nil, hmine.count_eq, List.count_cons] at hle
    rw [claimedAt_unclaim, Fetch.claims, hpending', List.append_nil]
    simp only [beq_iff_eq] at hle
    split at hle
    · rename_i heq
      rw [if_pos heq]
      omega
    · rename_i hne
      rw [if_neg hne]
      omega
  · rw [hpending', List.append_nil]
    exact (List.nodup_cons.mp (hmine.nodup_iff.mp hnodup)).2

/-- A private assembly takes the place of the one a fetch has worked on. -/
theorem Backed.privateAssembly (h : Backed s) (size : ℕ) : Backed (s.privateAssembly size).1 where
  counts b idx := by
    refine le_trans ?_ (h.counts b idx)
    show ((s.assemblies ++ [Assembly.new size])[b]?.map _).getD 0 ≤ _
    rw [List.getElem?_append]
    split
    · exact le_rfl
    · cases hget : [Assembly.new size][b - s.assemblies.length]? with
      | none => exact Nat.zero_le _
      | some c =>
        rw [List.mem_singleton.mp (List.mem_of_getElem? hget), Option.map_some, Option.getD_some, claimedAt_new]
        exact Nat.zero_le _
  nodup := h.nodup
  unguarded := h.unguarded

/-- A fetch that claims nothing moves to another assembly. -/
theorem Backed.moves (h : Backed s) (hx : s.fetches[f]? = some x) (hmine : x.mine = []) (hpending : x.place.pending = [])
    (hmine' : x'.mine = []) (hpending' : x'.place.pending = []) : Backed { s with fetches := s.fetches.set f x' } where
  counts b idx := by
    have hsum := sum_map_set (fun x : Fetch => if x.assembly = b then x.claims idx else 0) hx x'
    have hnone : x.claims idx = 0 := by rw [Fetch.claims, hmine, hpending]; rfl
    have hnone' : x'.claims idx = 0 := by rw [Fetch.claims, hmine', hpending']; rfl
    rw [hnone, hnone', ite_self, ite_self] at hsum
    exact (h.counts b idx).trans hsum.ge
  nodup y hy := by
    rcases List.mem_or_eq_of_mem_set hy with hy | rfl
    · exact h.nodup y hy
    · rw [hmine', hpending']
      exact List.nodup_nil
  unguarded y hy hplace := by
    rcases List.mem_or_eq_of_mem_set hy with hy | rfl
    · exact h.unguarded y hy hplace
    · exact hmine'

theorem Backed.advance {verified : List UInt8 → Bool} (h : Backed s) (hx : s.fetches[f]? = some x) (ha : s.assemblies[x.assembly]? = some a)
    (hs : s.advance verified f x a = some s') : Backed s' := by
  have hnodup := h.nodup x (List.mem_of_getElem? hx)
  have hguard := h.unguarded x (List.mem_of_getElem? hx)
  unfold Share.advance at hs
  split at hs
  case h_1 hplace =>
    cases hs
    refine h.goesOn s.used hx ha rfl rfl rfl ?_ ?_
    · show Place.pending (ite _ _ _) = _
      rw [hplace]
      split <;> rfl
    · show Place.unguarded (ite _ _ _) = true → _
      split <;> exact nofun
  case h_2 hplace =>
    cases hs
    have hclaim := claimedAt_claim a (peerMetadataWindow - x.mine.length) (x.mine ++ x.rejected)
    have hfresh := claimable_spec a (peerMetadataWindow - x.mine.length) (x.mine ++ x.rejected)
    rw [hplace] at hnodup
    refine h.put s.used hx ha rfl (fun idx n hle => ?_) ?_ nofun
    · rw [Fetch.claims, hplace, List.count_append] at hle
      rw [Fetch.claims, List.count_append]
      have hraised := hclaim idx
      simp only [Place.pending, List.count_nil] at hle
      show (a.claim _ _).2.claimedAt idx ≤ n + (x.mine.count idx + (a.claim _ _).1.count idx)
      omega
    · refine List.nodup_append.mpr ⟨(List.nodup_append.mp hnodup).1, hfresh.2, fun i hi j hj heq => ?_⟩
      exact (hfresh.1 j hj).2 (List.mem_append_left _ (heq ▸ hi))
  case h_3 hplace =>
    cases hs
    exact h.goesOn s.used hx ha rfl rfl rfl (by rw [hplace]; rfl) nofun
  case h_4 idx pending hplace =>
    cases hs
    rw [hplace] at hnodup
    have hout : idx ∉ x.mine := fun hin => (List.nodup_append.mp hnodup).2.2 idx hin idx (List.mem_cons_self ..) rfl
    have hperm : (x.mine ++ (Place.recording (idx :: pending)).pending).Perm (idx :: x.mine ++ pending) := List.perm_middle
    refine h.put s.used hx ha rfl (fun j n hle => ?_) ?_ nofun
    · rw [Fetch.claims, hplace, hperm.count_eq] at hle
      rw [Fetch.claims, if_neg hout]
      exact hle
    · rw [if_neg hout]
      exact hperm.nodup_iff.mp hnodup
  case h_5 hplace =>
    cases hs
    refine h.goesOn s.used hx ha rfl rfl rfl ?_ ?_
    · show Place.pending (ite _ _ _) = _
      rw [hplace]
      split <;> rfl
    · show Place.unguarded (ite _ _ _) = true → _
      split <;> exact nofun
  case h_6 idx block hplace =>
    split at hs
    · rename_i b taken hstore
      cases hs
      refine h.goesOn _ hx ha rfl ?_ rfl (by rw [hplace]; rfl) nofun
      exact claimed_store hstore
    · cases hs
      exact h.goesOn s.used hx ha rfl rfl rfl (by rw [hplace]; rfl) nofun
  case h_10 idx block victim hplace =>
    split at hs
    · rename_i v hv
      cases hs
      have hsame : ∀ b j, Share.claimedAt ⟨s.limit, s.assemblies.set victim v.reset, s.current, s.live, s.used - v.held,
          s.fetches.set f { x with place := .storing idx block }⟩ b j = s.claimedAt b j := by
        intro b j
        rw [claimedAt, claimedAt, List.getElem?_set]
        split
        · rename_i heq
          subst heq
          rw [hv, if_pos (List.getElem?_eq_some_iff.mp hv).1]
          rfl
        · rfl
      refine h.change hx rfl rfl (fun j n hle => ?_) (fun b _ j => hsame b j) ?_ nofun
      · rw [hsame]
        rw [Fetch.claims, hplace] at hle
        exact hle
      · rw [hplace] at hnodup
        exact hnodup
    · cases hs
  case h_11 idx hplace =>
    split at hs
    · rename_i hin
      cases hs
      exact h.undo { x with mine := x.mine.erase idx, place := .loop } hx ha rfl (List.perm_cons_erase hin) (by rw [hplace]; rfl) rfl nofun
    · cases hs
      exact h.goesOn s.used hx ha rfl rfl rfl (by rw [hplace]; rfl) nofun
  case h_12 ends hplace =>
    split at hs
    · rename_i idx mine hmine
      cases hs
      have hpending : x.place.pending = [] := by rw [hplace]; rfl
      refine h.undo { x with mine := mine } hx ha rfl (.of_eq hmine) hpending hpending ?_
      intro hun
      rw [hplace] at hun
      cases hun
    · rename_i hmine
      cases hs
      refine h.goesOn s.used hx ha rfl rfl rfl ?_ fun _ => hmine
      show Place.pending (ite _ _ _) = _
      rw [hplace]
      split <;> rfl
  case h_13 hplace =>
    have hmine : x.mine = [] := hguard (by rw [hplace]; rfl)
    split at hs
    · cases hs
      exact h.goesOn s.used hx ha rfl rfl rfl (by rw [hplace]; rfl) nofun
    · cases hs
      refine h.goesOn s.used hx ha rfl rfl rfl ?_ fun _ => hmine
      show Place.pending (ite _ _ _) = _
      rw [hplace]
      split
      · rfl
      · split <;> rfl
  case h_14 hplace =>
    cases hs
    exact h.goesOn _ hx ha rfl rfl rfl (by rw [hplace]; rfl) fun _ => hguard (by rw [hplace]; rfl)
  case h_15 hplace =>
    cases hs
    have hmine : x.mine = [] := hguard (by rw [hplace]; rfl)
    exact (h.privateAssembly x.totalSize).moves hx hmine (by rw [hplace]; rfl) hmine rfl
  case h_16 hplace =>
    cases hs
    exact h.goesOn s.used hx ha rfl rfl rfl (by rw [hplace]; rfl) fun _ => hguard (by rw [hplace]; rfl)
  case h_7 hplace =>
    cases hs
    exact h.goesOn s.used hx ha rfl rfl rfl (by rw [hplace]; rfl) nofun
  case h_8 hplace =>
    cases hs
    exact h.goesOn s.used hx ha rfl rfl rfl (by rw [hplace]; rfl) nofun
  case h_9 hplace =>
    cases hs
    exact h.goesOn s.used hx ha rfl rfl rfl (by rw [hplace]; rfl) nofun
  all_goals cases hs

/-- A fetch goes on without a look at its assembly. -/
theorem Backed.receives (h : Backed s) (hx : s.fetches[f]? = some x) (hsame : x'.assembly = x.assembly) (hmine : x'.mine = x.mine)
    (hpending : x'.place.pending = x.place.pending) (hunguarded : x'.place.unguarded = true → x.mine = []) :
    Backed { s with fetches := s.fetches.set f x' } := by
  refine h.change hx rfl hsame (fun idx n hle => ?_) (fun _ _ _ => rfl) ?_ fun hplace => hmine.trans (hunguarded hplace)
  · rw [Fetch.claims, hmine, hpending]
    exact hle
  · rw [hmine, hpending]
    exact h.nodup x (List.mem_of_getElem? hx)

theorem Backed.sweep (h : Backed s) : Backed s.sweep where
  counts b idx := by
    refine le_trans ?_ (h.counts b idx)
    show ((s.assemblies.mapIdx _)[b]?.map _).getD 0 ≤ _
    rw [List.getElem?_mapIdx, claimedAt]
    cases s.assemblies[b]? with
    | none => exact le_rfl
    | some a =>
      show (if s.alive b then a else a.reset).claimedAt idx ≤ a.claimedAt idx
      split <;> exact le_rfl
  nodup := h.nodup
  unguarded := h.unguarded

theorem Backed.attach (h : Backed s) (size : ℕ) : Backed (s.attach size).1 := by
  unfold Share.attach
  split
  · split
    · exact h
    · exact h.privateAssembly size
  · exact ⟨(h.privateAssembly size).counts, h.nodup, h.unguarded⟩

theorem Backed.joins (h : Backed s) (size a : ℕ) : Backed { s with fetches := s.fetches ++ [⟨size, a, false, [], [], .loop⟩] } where
  counts b idx := by
    refine (h.counts b idx).trans ?_
    show _ ≤ ((s.fetches ++ [_]).map _).sum
    rw [List.map_append, List.sum_append]
    exact Nat.le_add_right _ _
  nodup y hy := by
    rcases List.mem_append.mp hy with hy | hy
    · exact h.nodup y hy
    · rw [List.mem_singleton.mp hy]
      exact List.nodup_nil
  unguarded y hy hplace := by
    rcases List.mem_append.mp hy with hy | hy
    · exact h.unguarded y hy hplace
    · rw [List.mem_singleton.mp hy]

theorem received_spec (x : Fetch) (a : Assembly) (message : Message) :
    (received x a message).assembly = x.assembly ∧ (received x a message).mine = x.mine ∧ (received x a message).place.pending = [] ∧
      (received x a message).place.unguarded = false := by
  cases message with
  | data idx block =>
    refine ⟨rfl, rfl, ?_, ?_⟩
    · show Place.pending (ite _ _ _) = []
      split <;> rfl
    · show Place.unguarded (ite _ _ _) = false
      split <;> rfl
  | reject idx =>
    unfold received
    dsimp only
    split <;> exact ⟨rfl, rfl, rfl, rfl⟩
  | request => exact ⟨rfl, rfl, rfl, rfl⟩
  | other => exact ⟨rfl, rfl, rfl, rfl⟩
  | gone => exact ⟨rfl, rfl, rfl, rfl⟩

/-- A send that returns, where nothing is lost. -/
theorem afterSend_spec {ok : Bool} (h : afterSend x ok = some x') (hkeeps : ok = true ∨ x.place.pending = []) :
    x'.assembly = x.assembly ∧ x'.mine = x.mine ∧ x'.place.pending = x.place.pending ∧ x'.place.unguarded = false := by
  unfold afterSend at h
  split at h
  · rename_i pending hplace
    cases h
    cases ok with
    | true => exact ⟨rfl, rfl, by rw [hplace]; rfl, rfl⟩
    | false =>
      have hnone := hkeeps.resolve_left Bool.false_ne_true
      exact ⟨rfl, rfl, by rw [hnone]; rfl, rfl⟩
  · rename_i hplace
    cases h
    refine ⟨rfl, rfl, ?_, ?_⟩ <;> cases ok <;> first | rfl | (rw [hplace]; rfl)
  · cases h

theorem cancelled_spec (h : cancelled x = some x') (hkeeps : x.place.pending = []) :
    x'.assembly = x.assembly ∧ x'.mine = x.mine ∧ x'.place.pending = x.place.pending ∧ x'.place.unguarded = false := by
  rw [hkeeps]
  unfold cancelled at h
  split at h
  · cases h
    exact ⟨rfl, rfl, rfl, rfl⟩
  · cases h
    exact ⟨rfl, rfl, rfl, rfl⟩
  · cases h
    exact ⟨rfl, rfl, rfl, rfl⟩
  · cases h
    exact ⟨rfl, rfl, rfl, rfl⟩
  · cases h

/-- Every step leaves a fetch behind each claim, if no claim is lost. -/
theorem Backed.step {verified : List UInt8 → Bool} (h : Backed s) {act : Action} (hkeeps : s.loses act = false)
    (hs : s.step verified act = some s') : Backed s' := by
  obtain ⟨after, hperform, rfl⟩ := Option.map_eq_some_iff.mp hs
  refine Backed.sweep ?_
  cases act with
  | attach size =>
    unfold perform at hperform
    dsimp only at hperform
    split at hperform
    · cases hperform
    · cases hperform
      exact (h.attach size).joins _ _
  | turn f =>
    obtain ⟨x, hx, hturn⟩ := Option.bind_eq_some_iff.mp hperform
    obtain ⟨a, ha, hadvance⟩ := Option.bind_eq_some_iff.mp hturn
    exact h.advance hx ha hadvance
  | sent f ok =>
    obtain ⟨x, hx, hsent⟩ := Option.bind_eq_some_iff.mp hperform
    obtain ⟨x', hafter, rfl⟩ := Option.map_eq_some_iff.mp hsent
    have hpending : ok = true ∨ x.place.pending = [] := by
      cases ok with
      | true => exact .inl rfl
      | false =>
        unfold loses at hkeeps
        dsimp only at hkeeps
        rw [hx, Option.any_some, Bool.not_eq_false', List.isEmpty_iff] at hkeeps
        exact .inr hkeeps
    obtain ⟨hsame, hmine, hpending', hun⟩ := afterSend_spec hafter hpending
    exact h.receives hx hsame hmine hpending' (unguarded_of_ne hun)
  | receive f message =>
    obtain ⟨x, hx, hreceive⟩ := Option.bind_eq_some_iff.mp hperform
    obtain ⟨a, ha, hmessage⟩ := Option.bind_eq_some_iff.mp hreceive
    split at hmessage
    · rename_i hplace
      cases hmessage
      obtain ⟨hsame, hmine, hpending, hun⟩ := received_spec x a message
      exact h.receives hx hsame hmine (by rw [hpending, hplace]; rfl) (unguarded_of_ne hun)
    · cases hmessage
  | cancel f =>
    obtain ⟨x, hx, hcancel⟩ := Option.bind_eq_some_iff.mp hperform
    obtain ⟨x', hafter, rfl⟩ := Option.map_eq_some_iff.mp hcancel
    have hpending : x.place.pending = [] := by
      unfold loses at hkeeps
      dsimp only at hkeeps
      rw [hx, Option.any_some, Bool.not_eq_false', List.isEmpty_iff] at hkeeps
      exact hkeeps
    obtain ⟨hsame, hmine, hpending', hun⟩ := cancelled_spec hafter hpending
    exact h.receives hx hsame hmine hpending' (unguarded_of_ne hun)

/-- When every fetch has ended no counter is above zero. -/
theorem Backed.returned (h : Backed s) (hended : ∀ x ∈ s.fetches, x.place = .ended) : ∀ a ∈ s.assemblies, ∀ c ∈ a.claimed, c = 0 := by
  intro a ha c hc
  obtain ⟨i, hi⟩ := List.mem_iff_getElem?.mp ha
  obtain ⟨idx, hidx⟩ := List.mem_iff_getElem?.mp hc
  have hcount := h.counts i idx
  have hclaimed : s.claimedAt i idx = c.toNat := by
    rw [claimedAt, hi, Option.map_some, Option.getD_some, Assembly.claimedAt, List.getD_eq_getElem?_getD, hidx]
    rfl
  have hnone : s.claimsOn i idx = 0 := by
    refine List.sum_eq_zero fun n hn => ?_
    obtain ⟨x, hx, rfl⟩ := List.mem_map.mp hn
    have hmine : x.mine = [] := h.unguarded x hx (by rw [hended x hx]; rfl)
    rw [Fetch.claims, hmine, hended x hx]
    exact ite_self 0
  rw [hclaimed, hnone] at hcount
  exact UInt8.toNat_inj.mp (Nat.le_zero.mp hcount)

end Share

end Claims

end Risuko
