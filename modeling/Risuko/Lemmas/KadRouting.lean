import Risuko.Id20
import Risuko.Kad.Routing
import Risuko.Lib.Lists
import Risuko.Lib.Selection

/-!
# The invariant of the Kad routing table

Each bucket with its replacement list is a `Cell`, told by the ids in it alone, so that moving a contact within its bucket or refreshing it keeps the
cell; the index of the ids is exact (`RoutingTable.Ok`).
-/

namespace Risuko

namespace Kad

/-! ## Bucket indexes -/

theorem KadId.xorDistance_left_cancel {a b c : KadId} (h : (a.xorDistance b).bytes = (a.xorDistance c).bytes) : b = c := by
  have hcancel : ∀ b : KadId, List.zipWith (· ^^^ ·) a.bytes (a.xorDistance b).bytes = b.bytes := fun b =>
    Id20.zipWith_xor_cancel (by rw [a.length_eq, b.length_eq])
  exact ext (by rw [← hcancel b, ← hcancel c, h])

/-- Only our own id has no bucket. -/
theorem KadId.eq_of_bucketIndex_none {a b : KadId} (h : a.bucketIndex b = none) : a = b := by
  unfold KadId.bucketIndex at h
  have hzero := List.findIdx?_eq_none_iff.mp (Option.map_eq_none_iff.mp h)
  refine xorDistance_left_cancel (a := a) (List.ext_getElem ?_ fun k hk hk' => ?_)
  · rw [(a.xorDistance a).length_eq, (a.xorDistance b).length_eq]
  · have hbyte := hzero _ (List.getElem_mem hk')
    rw [decide_eq_false_iff_not, not_not] at hbyte
    rw [hbyte]
    exact List.getElem_zipWith.trans UInt8.xor_self

theorem Contact.id_ne_of_isValidForRouting {c : Contact} {localId : KadId} (h : c.isValidForRouting localId = true) : c.id ≠ localId := by
  unfold Contact.isValidForRouting at h
  simp only [Bool.and_eq_true, decide_eq_true_eq] at h
  exact h.1.1.1.2

/-! ## Cells -/

/-- A bucket and its replacement list, by the ids in them. -/
structure Cell (localId : KadId) (i : ℕ) (bucket replacements : List KadId) : Prop where
  placed : ∀ id ∈ bucket ++ replacements, localId.bucketIndex id = some i
  room : bucket.length ≤ bucketSize ∧ replacements.length ≤ bucketSize
  once : (bucket ++ replacements).Nodup
  full : replacements ≠ [] → bucket.length = bucketSize

namespace Cell

variable {localId id : KadId} {i : ℕ} {B B' R : List KadId}

/-- The order in a bucket does not matter. -/
theorem perm (h : Cell localId i B R) (hperm : B'.Perm B) : Cell localId i B' R :=
  { placed := fun id hid => h.placed id ((hperm.append_right R).mem_iff.mp hid)
    room := by
      rw [hperm.length_eq]
      exact h.room
    once := (hperm.append_right R).nodup_iff.mpr h.once
    full := by
      rw [hperm.length_eq]
      exact h.full }

/-- Where there is room in the bucket, no contact waits. -/
theorem replacements_nil (h : Cell localId i B R) (hroom : B.length < bucketSize) : R = [] := by
  by_contra hne
  exact absurd (h.full hne) (by omega)

theorem insert (h : Cell localId i B R) (hroom : B.length < bucketSize) (hid : localId.bucketIndex id = some i) (hnew : id ∉ B) :
    Cell localId i (B ++ [id]) R := by
  have hnil := h.replacements_nil hroom
  rw [hnil] at h ⊢
  have honce := h.once
  rw [List.append_nil] at honce
  exact
    { placed := fun id' hid' => by
        rw [List.append_nil] at hid'
        obtain hold | hone := List.mem_append.mp hid'
        · exact h.placed id' (List.mem_append_left _ hold)
        · rw [List.mem_singleton.mp hone]
          exact hid
      room := ⟨by
        rw [List.length_append, List.length_singleton]
        exact hroom, Nat.zero_le _⟩
      once := by
        rw [List.append_nil]
        exact List.nodup_append_comm.mp (List.nodup_cons.mpr ⟨hnew, honce⟩)
      full := fun hne => absurd rfl hne }

/-- A contact more waits, and the one that waited longest goes if there are too many. -/
theorem wait (h : Cell localId i B R) (hfull : ¬ B.length < bucketSize) (hid : localId.bucketIndex id = some i) (hnew : id ∉ B ++ R) :
    Cell localId i B ((if bucketSize ≤ R.length then R.drop 1 else R) ++ [id]) := by
  have hkept : (if bucketSize ≤ R.length then R.drop 1 else R).Sublist R := by
    split
    · exact List.drop_sublist _ _
    · exact List.Sublist.refl _
  have hlength : (if bucketSize ≤ R.length then R.drop 1 else R).length < bucketSize := by
    have hroom := h.room.2
    split
    · rw [List.length_drop]
      unfold bucketSize at hroom ⊢
      omega
    · omega
  have hsub := hkept.append_left B
  exact
    { placed := fun id' hid' => by
        rw [← List.append_assoc] at hid'
        obtain hold | hone := List.mem_append.mp hid'
        · exact h.placed id' (hsub.subset hold)
        · rw [List.mem_singleton.mp hone]
          exact hid
      room := ⟨h.room.1, by
        rw [List.length_append, List.length_singleton]
        exact hlength⟩
      once := by
        rw [← List.append_assoc]
        exact List.nodup_append_comm.mp (List.nodup_cons.mpr ⟨fun hmem => hnew (hsub.subset hmem), h.once.sublist hsub⟩)
      full := fun _ => le_antisymm h.room.1 (not_lt.mp hfull) }

/-- An id is gone, and the contact that waited last takes its place. -/
theorem remove (h : Cell localId i (id :: B) R) : Cell localId i (B ++ R.getLast?.toList) R.dropLast := by
  have hsub : (B ++ R).Sublist (id :: B ++ R) := List.sublist_cons_self _ _
  have hperm : (B ++ R.getLast?.toList ++ R.dropLast).Perm (B ++ R) := by
    rw [List.append_assoc]
    refine List.Perm.append_left B ?_
    rcases List.eq_nil_or_concat R with hR | ⟨R', last, hR⟩
    · rw [hR]
      exact List.Perm.nil
    · rw [hR, List.concat_eq_append, List.getLast?_concat, List.dropLast_concat]
      exact (List.perm_append_singleton last R').symm
  have hroom := h.room
  rw [List.length_cons] at hroom
  have hlast : R.getLast?.toList.length ≤ 1 := Option.length_toList_le
  exact
    { placed := fun id' hid' => h.placed id' (hsub.subset (hperm.mem_iff.mp hid'))
      room := by
        rw [List.length_append, List.length_dropLast]
        omega
      once := hperm.nodup_iff.mpr (h.once.sublist hsub)
      full := fun hne => by
        have hR : R ≠ [] := by
          rintro rfl
          exact hne rfl
        have hfull := h.full hR
        rw [List.getLast?_eq_some_getLast hR, List.length_append]
        rw [List.length_cons] at hfull
        exact hfull }

end Cell

/-! ## The table -/

namespace RoutingTable

variable {t t' : RoutingTable} {id : KadId} {i : ℕ}

def bucketIds (t : RoutingTable) (i : ℕ) : List KadId := (t.buckets i).map (·.id)

def replacementIds (t : RoutingTable) (i : ℕ) : List KadId := (t.replacements i).map (·.id)

structure Ok (t : RoutingTable) : Prop where
  cells : ∀ i, Cell t.localId i (t.bucketIds i) (t.replacementIds i)
  indexed : ∀ id i, t.byId id = some i ↔ id ∈ t.bucketIds i

theorem Ok.new (localId : KadId) : (new localId).Ok where
  cells _ := ⟨fun _ hid => absurd hid List.not_mem_nil, ⟨Nat.zero_le _, Nat.zero_le _⟩, List.nodup_nil, fun hne => absurd rfl hne⟩
  indexed _ _ := ⟨fun h => (by cases h), fun h => absurd h List.not_mem_nil⟩

/-- One cell changes, and the index with it. -/
theorem Ok.change (h : t.Ok) (i : ℕ) (hlocal : t'.localId = t.localId) (hother : ∀ j, j ≠ i → t'.bucketIds j = t.bucketIds j ∧
    t'.replacementIds j = t.replacementIds j)
    (hcell : Cell t.localId i (t'.bucketIds i) (t'.replacementIds i)) (hindex : ∀ id, t'.byId id = some i ↔ id ∈ t'.bucketIds i)
    (hkeep : ∀ id j, j ≠ i → (t'.byId id = some j ↔ t.byId id = some j)) : t'.Ok where
  cells j := by
    rw [hlocal]
    by_cases hj : j = i
    · rw [hj]
      exact hcell
    · rw [(hother j hj).1, (hother j hj).2]
      exact h.cells j
  indexed id j := by
    by_cases hj : j = i
    · rw [hj]
      exact hindex id
    · rw [hkeep id j hj, (hother j hj).1]
      exact h.indexed id j

/-- A contact that the index has stands in its bucket. -/
theorem Ok.exists_position (h : t.Ok) (hid : t.byId id = some i) :
    ∃ k c, (t.buckets i).findIdx? (fun c => decide (c.id = id)) = some k ∧ (t.buckets i)[k]? = some c ∧ c.id = id := by
  obtain ⟨c, hc, hcid⟩ := List.mem_map.mp ((h.indexed id i).mp hid)
  cases hfind : (t.buckets i).findIdx? fun c => decide (c.id = id) with
  | none => exact absurd (List.findIdx?_eq_none_iff.mp hfind c hc) (by rw [decide_eq_true hcid]; exact Bool.noConfusion)
  | some k =>
    obtain ⟨hlt, hk, -⟩ := List.findIdx?_eq_some_iff_getElem.mp hfind
    exact ⟨k, _, rfl, List.getElem?_eq_getElem hlt, of_decide_eq_true hk⟩

/-- An id that the index does not have stands in no bucket. -/
theorem Ok.not_mem_bucketIds (h : t.Ok) (hid : t.byId id = none) (i : ℕ) : id ∉ t.bucketIds i := by
  intro hmem
  rw [(h.indexed id i).mpr hmem] at hid
  cases hid

/-- The contacts of a bucket are put in another order, or refreshed. -/
theorem Ok.setBucket (h : t.Ok) {bucket : List Contact} (hperm : (bucket.map (·.id)).Perm (t.bucketIds i)) : (t.setBucket i bucket).Ok := by
  have hself : (t.setBucket i bucket).bucketIds i = bucket.map (·.id) := by
    unfold bucketIds RoutingTable.setBucket
    dsimp only
    rw [Function.update_self]
  refine h.change i rfl (fun j hj => ⟨?_, rfl⟩) ?_ (fun id => ?_) fun id j _ => Iff.rfl
  · unfold bucketIds RoutingTable.setBucket
    dsimp only
    rw [Function.update_of_ne hj]
  · rw [hself]
    exact (h.cells i).perm hperm
  · rw [hself, hperm.mem_iff]
    exact h.indexed id i

/-- The ids of a bucket, with the contact of a place in front. -/
theorem ids_eraseIdx_perm {L : List Contact} {k : ℕ} {c : Contact} (h : L[k]? = some c) :
    (c.id :: (L.eraseIdx k).map (·.id)).Perm (L.map (·.id)) := by
  have hperm := (cons_eraseIdx_perm h).map (·.id)
  rw [List.map_cons] at hperm
  exact hperm

theorem Ok.markFailed (h : t.Ok) (id : KadId) : (t.markFailed id).Ok := by
  unfold RoutingTable.markFailed
  split
  · exact h
  · rename_i index hindex
    obtain ⟨k, c, hfind, hk, -⟩ := h.exists_position hindex
    rw [hfind]
    dsimp only
    rw [hk]
    exact h.setBucket (ids_eraseIdx_perm hk)

/-- A contact is refreshed and goes to the end of its bucket. -/
theorem Ok.refresh (h : t.Ok) {k : ℕ} {c c' : Contact} (hk : (t.buckets i)[k]? = some c) (hid : c'.id = c.id) :
    (t.setBucket i ((t.buckets i).eraseIdx k ++ [c'])).Ok := by
  refine h.setBucket ?_
  rw [List.map_append, List.map_singleton, hid]
  exact (List.perm_append_singleton _ _).trans (ids_eraseIdx_perm hk)

/-- A new contact goes into a bucket that has room. -/
theorem Ok.add (h : t.Ok) {c : Contact} (hnone : t.byId c.id = none) (hid : t.localId.bucketIndex c.id = some i)
    (hroom : (t.buckets i).length < bucketSize) : ((t.setBucket i (t.buckets i ++ [c])).setIndex c.id (some i)).Ok := by
  have hnew := h.not_mem_bucketIds hnone
  have hself : ((t.setBucket i (t.buckets i ++ [c])).setIndex c.id (some i)).bucketIds i = t.bucketIds i ++ [c.id] := by
    unfold bucketIds setIndex RoutingTable.setBucket
    dsimp only
    rw [Function.update_self, List.map_append, List.map_singleton]
  refine h.change i rfl (fun j hj => ⟨?_, rfl⟩) ?_ (fun id => ?_) fun id j hj => ?_
  · unfold bucketIds setIndex RoutingTable.setBucket
    dsimp only
    rw [Function.update_of_ne hj]
  · rw [hself]
    refine (h.cells i).insert ?_ hid (hnew i)
    unfold bucketIds
    rw [List.length_map]
    exact hroom
  · rw [hself, List.mem_append, List.mem_singleton]
    unfold setIndex RoutingTable.setBucket
    dsimp only
    by_cases hc : id = c.id
    · rw [hc, Function.update_self]
      exact ⟨fun _ => .inr rfl, fun _ => rfl⟩
    · rw [Function.update_of_ne hc, h.indexed id i]
      exact ⟨.inl, fun hmem => hmem.resolve_right hc⟩
  · unfold setIndex RoutingTable.setBucket
    dsimp only
    by_cases hc : id = c.id
    · rw [hc, Function.update_self, hnone]
      exact ⟨fun he => absurd (Option.some.inj he).symm hj, fun he => by cases he⟩
    · rw [Function.update_of_ne hc]

/-- The replacement list of a bucket changes. -/
theorem Ok.setReplacements (h : t.Ok) {replacements : List Contact} (hcell : Cell t.localId i (t.bucketIds i) (replacements.map (·.id))) :
    (t.setReplacements i replacements).Ok := by
  refine h.change i rfl (fun j hj => ⟨rfl, ?_⟩) ?_ (fun id => h.indexed id i) fun id j _ => Iff.rfl
  · unfold replacementIds RoutingTable.setReplacements
    dsimp only
    rw [Function.update_of_ne hj]
  · have hself : (t.setReplacements i replacements).replacementIds i = replacements.map (·.id) := by
      unfold replacementIds RoutingTable.setReplacements
      dsimp only
      rw [Function.update_self]
    rw [hself]
    exact hcell

/-- The table after a contact is removed: the one that waited last, if any, has taken its place. -/
theorem remove_eq {k : ℕ} {c : Contact} (hindex : t.byId c.id = some i) (hfind : (t.buckets i).findIdx? (fun c' => decide (c'.id = c.id)) = some k) :
    (t.remove c.id).2 =
      { localId := t.localId
        buckets := Function.update t.buckets i ((t.buckets i).eraseIdx k ++ (t.replacements i).getLast?.toList)
        replacements := Function.update t.replacements i (t.replacements i).dropLast
        byId := fun id => if (t.replacements i).getLast?.any (fun last => decide (last.id = id)) = true then some i else if id =
            c.id then none else t.byId id } := by
  unfold RoutingTable.remove
  rw [hindex]
  dsimp only [setIndex]
  rw [hfind]
  dsimp only
  unfold promoteReplacement
  dsimp only [RoutingTable.setBucket, RoutingTable.setReplacements]
  cases hlast : (t.replacements i).getLast? with
  | none =>
    have hnil : t.replacements i = [] := List.getLast?_eq_none_iff.mp hlast
    have hsame : Function.update t.replacements i [] = t.replacements := by
      rw [← hnil]
      exact Function.update_eq_self i t.replacements
    rw [hnil, List.dropLast_nil, hsame, Option.toList_none, List.append_nil]
    dsimp only
    congr 1
    funext id
    rw [Option.any_none, if_neg Bool.false_ne_true, Function.update_apply]
  | some last =>
    dsimp only [setIndex]
    rw [Function.update_idem, Function.update_self, Option.toList_some]
    congr 1
    funext id
    rw [Option.any_some, Function.update_apply, Function.update_apply]
    have hlastid : decide (last.id = id) = true ↔ id = last.id := by
      rw [decide_eq_true_eq]
      exact eq_comm
    rw [if_congr hlastid rfl rfl]

theorem Ok.remove (h : t.Ok) (id : KadId) : (t.remove id).2.Ok := by
  cases hindex : t.byId id with
  | none =>
    unfold RoutingTable.remove
    rw [hindex]
    exact h
  | some i =>
    obtain ⟨k, c, hfind, hk, rfl⟩ := h.exists_position hindex
    rw [remove_eq hindex hfind]
    have hperm : (c.id :: ((t.buckets i).eraseIdx k).map (·.id)).Perm (t.bucketIds i) := ids_eraseIdx_perm hk
    have hcell := ((h.cells i).perm hperm).remove
    have hids : (t.replacementIds i).getLast? = (t.replacements i).getLast?.map (·.id) := List.getLast?_map
    have hlast : ∀ id, (t.replacements i).getLast?.any (fun last => decide (last.id = id)) = true ↔ id ∈ (t.replacementIds i).getLast?.toList := by
      intro id
      rw [hids]
      cases (t.replacements i).getLast? with
      | none => exact ⟨nofun, nofun⟩
      | some last =>
        rw [Option.any_some, decide_eq_true_eq, Option.map_some, Option.toList_some, List.mem_singleton]
        exact ⟨Eq.symm, Eq.symm⟩
    -- Who waits is not the one who goes, and is in no bucket.
    have hwaits : ∀ id ∈ (t.replacementIds i).getLast?.toList, id ∈ t.replacementIds i := fun id hid =>
      List.mem_of_getLast? (Option.mem_toList.mp hid)
    have hbucket : ((t.buckets i).eraseIdx k ++ (t.replacements i).getLast?.toList).map (·.id) =
        ((t.buckets i).eraseIdx k).map (·.id) ++ (t.replacementIds i).getLast?.toList := by
      rw [List.map_append, hids]
      cases (t.replacements i).getLast? <;> rfl
    have hnodup := (List.nodup_cons.mp (hperm.nodup_iff.mpr (List.nodup_append.mp (h.cells i).once).1)).1
    refine h.change i rfl (fun j hj => ⟨?_, ?_⟩) ?_ (fun id => ?_) fun id j hj => ?_
    · unfold bucketIds
      dsimp only
      rw [Function.update_of_ne hj]
    · unfold replacementIds
      dsimp only
      rw [Function.update_of_ne hj]
    · unfold bucketIds replacementIds at *
      dsimp only
      rw [Function.update_self, Function.update_self, hbucket, List.map_dropLast]
      exact hcell
    · unfold bucketIds
      dsimp only
      rw [Function.update_self, hbucket, List.mem_append, ← hlast]
      by_cases hl : (t.replacements i).getLast?.any (fun last => decide (last.id = id)) = true
      · rw [if_pos hl]
        exact ⟨fun _ => .inr hl, fun _ => rfl⟩
      · rw [if_neg hl, or_iff_left hl]
        by_cases hc : id = c.id
        · rw [if_pos hc, hc]
          exact ⟨nofun, fun hmem => absurd hmem hnodup⟩
        · rw [if_neg hc, h.indexed id i, ← hperm.mem_iff, List.mem_cons]
          exact or_iff_right hc
    · dsimp only
      by_cases hl : (t.replacements i).getLast?.any (fun last => decide (last.id = id)) = true
      · rw [if_pos hl]
        refine ⟨fun he => absurd (Option.some.inj he).symm hj, fun he => ?_⟩
        have hplaced := (h.cells i).placed id (List.mem_append_right _ (hwaits id ((hlast id).mp hl)))
        rw [(h.cells j).placed id (List.mem_append_left _ ((h.indexed _ _).mp he))] at hplaced
        exact absurd (Option.some.inj hplaced) hj
      · rw [if_neg hl]
        by_cases hc : id = c.id
        · rw [if_pos hc, hc, hindex]
          exact ⟨nofun, fun he => absurd (Option.some.inj he).symm hj⟩
        · rw [if_neg hc]

theorem Ok.removeIfUnchanged (h : t.Ok) (expected : Contact) : (t.removeIfUnchanged expected).2.Ok := by
  unfold RoutingTable.removeIfUnchanged
  split
  · exact h
  split
  · exact h
  · exact h.remove expected.id

end RoutingTable

/-! ## Calls -/

namespace Routing

open RoutingTable

variable {s : Routing} {contact : Contact} {id : KadId} {now i : ℕ}

theorem ok_markAlive (h : s.table.Ok) : (s.markAlive id now).2.table.Ok := by
  unfold markAlive
  split
  · exact h
  · rename_i index hindex
    obtain ⟨k, c, hfind, hk, -⟩ := h.exists_position hindex
    rw [hfind]
    dsimp only [nextRefreshGeneration]
    rw [hk]
    exact h.refresh hk rfl

theorem ok_place (h : s.table.Ok) (hnone : s.table.byId contact.id = none) (hid : s.table.localId.bucketIndex contact.id = some i) :
    (s.place contact i).2.table.Ok := by
  unfold place
  split
  · rename_i hroom
    exact h.add hnone hid hroom
  · rename_i hfull
    have hbucket : ¬ (s.table.bucketIds i).length < bucketSize := by
      unfold bucketIds
      rw [List.length_map]
      exact hfull
    dsimp only
    split
    · rename_i position hposition
      obtain ⟨hlt, hsame, -⟩ := List.findIdx?_eq_some_iff_getElem.mp hposition
      refine h.setReplacements ?_
      have hids : ((s.table.replacements i).set position contact).map (·.id) = s.table.replacementIds i := by
        unfold replacementIds
        rw [List.map_set, ← of_decide_eq_true hsame]
        refine List.ext_getElem? fun j => ?_
        rw [List.getElem?_set]
        split
        · rename_i hj
          rw [← hj, if_pos (by rw [List.length_map]; exact hlt), List.getElem?_map, List.getElem?_eq_getElem hlt]
          rfl
        · rfl
      rw [hids]
      exact h.cells i
    · rename_i hnew
      refine h.setReplacements ?_
      have hwait := (h.cells i).wait hbucket hid (fun hmem => (List.mem_append.mp hmem).elim (h.not_mem_bucketIds hnone i) fun hin => by
        obtain ⟨c', hc', hsame⟩ := List.mem_map.mp hin
        have hdiffers := List.findIdx?_eq_none_iff.mp hnew c' hc'
        rw [decide_eq_true hsame] at hdiffers
        cases hdiffers)
      unfold replacementIds at hwait
      rw [List.length_map] at hwait
      rw [List.map_append, List.map_singleton]
      split
      · rename_i hmany
        rw [if_pos hmany] at hwait
        rw [List.map_drop]
        exact hwait
      · rename_i hfew
        rw [if_neg hfew] at hwait
        exact hwait

theorem ok_insertNew (h : s.table.Ok) (hnone : s.table.byId contact.id = none) (hid : s.table.localId.bucketIndex contact.id = some i) :
    (s.insertNew contact i).2.table.Ok := by
  unfold insertNew
  split
  · exact @ok_place s.nextRefreshGeneration.2 { contact with refreshGeneration := s.nextRefreshGeneration.1 } i h hnone hid
  · exact ok_place h hnone hid

theorem ok_insert (h : s.table.Ok) : (s.insert contact now).2.table.Ok := by
  unfold insert
  split
  · exact h
  split
  · exact h
  rename_i index hid
  split
  · exact h
  split
  · rename_i hnone
    exact ok_insertNew h hnone hid
  · rename_i existing hexisting
    obtain ⟨k, c, hfind, hk, hsame⟩ := h.exists_position hexisting
    dsimp only
    rw [hfind]
    dsimp only [nextRefreshGeneration]
    rw [hk]
    exact h.refresh hk rfl

end Routing

/-! ## What is stored -/

namespace RoutingTable

variable {t : RoutingTable} {c c' : Contact} {id : KadId} {i j : ℕ}

/-- A contact is in a bucket or waits. -/
def Stored (t : RoutingTable) (c : Contact) : Prop := ∃ i, c ∈ t.buckets i ++ t.replacements i

theorem Ok.unique (h : t.Ok) (hc : t.Stored c) (hc' : t.Stored c') (hid : c.id = c'.id) : c = c' := by
  obtain ⟨i, hi⟩ := hc
  obtain ⟨j, hj⟩ := hc'
  have hmem : ∀ {c i}, c ∈ t.buckets i ++ t.replacements i → c.id ∈ t.bucketIds i ++ t.replacementIds i := by
    intro c i hc
    unfold bucketIds replacementIds
    rw [← List.map_append]
    exact List.mem_map_of_mem hc
  have hsame : some i = some j := by rw [← (h.cells i).placed _ (hmem hi), ← (h.cells j).placed _ (hmem hj), hid]
  cases hsame
  have honce := (h.cells i).once
  unfold bucketIds replacementIds at honce
  rw [← List.map_append] at honce
  exact List.inj_on_of_nodup_map honce hi hj hid

theorem Ok.nodup_ids (h : t.Ok) : (((List.range idBits).flatMap fun i => t.buckets i ++ t.replacements i).map (·.id)).Nodup := by
  have hids : ∀ i, (t.buckets i ++ t.replacements i).map (·.id) = t.bucketIds i ++ t.replacementIds i := fun i => List.map_append
  rw [List.map_flatMap, List.nodup_flatMap]
  refine ⟨fun i _ => ?_, List.nodup_range.imp fun {i j} hne => ?_⟩
  · rw [hids]
    exact (h.cells i).once
  · intro id hi hj
    dsimp only at hi hj
    rw [hids] at hi hj
    have hsame := (h.cells i).placed id hi
    rw [(h.cells j).placed id hj] at hsame
    exact hne (Option.some.inj hsame).symm

theorem stored_setBucket {bucket : List Contact} (h : (t.setBucket i bucket).Stored c) : t.Stored c ∨ c ∈ bucket := by
  obtain ⟨j, hj⟩ := h
  unfold RoutingTable.setBucket at hj
  dsimp only at hj
  rw [Function.update_apply] at hj
  split at hj
  · rename_i hij
    obtain hin | hin := List.mem_append.mp hj
    · exact .inr hin
    · exact .inl ⟨j, List.mem_append_right _ hin⟩
  · exact .inl ⟨j, hj⟩

theorem stored_setReplacements {replacements : List Contact} (h : (t.setReplacements i replacements).Stored c) : t.Stored c ∨ c ∈ replacements := by
  obtain ⟨j, hj⟩ := h
  unfold RoutingTable.setReplacements at hj
  dsimp only at hj
  rw [Function.update_apply] at hj
  split at hj
  · obtain hin | hin := List.mem_append.mp hj
    · exact .inl ⟨j, List.mem_append_left _ hin⟩
    · exact .inr hin
  · exact .inl ⟨j, hj⟩

theorem stored_of_bucket (h : c ∈ t.buckets i) : t.Stored c := ⟨i, List.mem_append_left _ h⟩

theorem stored_of_replacements (h : c ∈ t.replacements i) : t.Stored c := ⟨i, List.mem_append_right _ h⟩

theorem stored_markFailed (h : (t.markFailed id).Stored c) : t.Stored c := by
  unfold RoutingTable.markFailed at h
  split at h
  · exact h
  split at h
  · exact h
  · obtain hold | hin := stored_setBucket h
    · exact hold
    · obtain hin | hin := List.mem_append.mp hin
      · exact stored_of_bucket (List.mem_of_getElem? (Option.mem_toList.mp hin))
      · exact stored_of_bucket (List.mem_of_mem_eraseIdx hin)

theorem stored_remove (h : t.Ok) (hc : (t.remove id).2.Stored c) : t.Stored c := by
  cases hindex : t.byId id with
  | none =>
    unfold RoutingTable.remove at hc
    rw [hindex] at hc
    exact hc
  | some i =>
    obtain ⟨k, found, hfind, hk, rfl⟩ := h.exists_position hindex
    rw [remove_eq hindex hfind] at hc
    obtain ⟨j, hj⟩ := hc
    dsimp only at hj
    rw [Function.update_apply, Function.update_apply] at hj
    split at hj
    · obtain hin | hin := List.mem_append.mp hj
      · obtain hin | hin := List.mem_append.mp hin
        · exact stored_of_bucket (List.mem_of_mem_eraseIdx hin)
        · exact stored_of_replacements (List.mem_of_getLast? (Option.mem_toList.mp hin))
      · exact stored_of_replacements (List.mem_of_mem_dropLast hin)
    · exact ⟨j, hj⟩

theorem stored_removeIfUnchanged (h : t.Ok) {expected : Contact} (hc : (t.removeIfUnchanged expected).2.Stored c) : t.Stored c := by
  unfold RoutingTable.removeIfUnchanged at hc
  split at hc
  · exact hc
  split at hc
  · exact hc
  · exact stored_remove h hc

/-- A contact whose generation is another is not removed. -/
theorem removeIfUnchanged_eq (h : ∀ c, t.Stored c → c.id = c'.id → c.refreshGeneration ≠ c'.refreshGeneration) :
    t.removeIfUnchanged c' = (none, t) := by
  unfold RoutingTable.removeIfUnchanged
  split
  · rfl
  · rename_i current hcurrent
    obtain ⟨i, -, hfind⟩ := Option.bind_eq_some_iff.mp hcurrent
    have hid := List.find?_some hfind
    rw [if_pos]
    exact .inr (.inr (.inr (h current (stored_of_bucket (List.mem_of_find?_eq_some hfind)) (of_decide_eq_true hid))))

end RoutingTable

/-! ## Distances -/

namespace RoutingTable

variable {t : RoutingTable} {target : KadId} {L : List Contact}

/-- Distinct contacts come out in the order of their distances, each nearer than the next. -/
theorem pairwise_sortByDistance (hids : (L.map (·.id)).Nodup) :
    (sortByDistance target L).Pairwise fun a b => target.compareDistance a.id b.id = .lt := by
  refine @pairwise_mergeSort_compare _ _ _ (fun c : Contact => (target.xorDistance c.id).bytes) _ _ L ?_
  exact (List.pairwise_map.mp hids).imp fun hne heq => hne (KadId.xorDistance_left_cancel heq)

theorem Ok.nodup_contacts (h : t.Ok) : (t.contacts.map (·.id)).Nodup := by
  refine List.Nodup.sublist (List.Sublist.map _ ?_) h.nodup_ids
  unfold contacts
  induction List.range idBits with
  | nil => exact List.Sublist.refl _
  | cons i rest ih =>
    rw [List.flatMap_cons, List.flatMap_cons]
    exact (List.sublist_append_left _ _).append ih

/-- `closest` gives as many contacts as there are, up to the limit and `MAX_LOOKUP_QUERIES`, in the order of their distances, and every other contact is
farther than each of them. -/
theorem Ok.closest (h : t.Ok) (target : KadId) (limit : ℕ) :
    (t.closest target limit).length = min (min limit maxLookupQueries) t.contacts.length ∧
      (∀ c ∈ t.closest target limit, c ∈ t.contacts) ∧
      ((t.closest target limit).Pairwise fun a b => target.compareDistance a.id b.id = .lt) ∧
      ∀ c ∈ t.contacts, c ∈ t.closest target limit ∨ ∀ b ∈ t.closest target limit, target.compareDistance b.id c.id = .lt := by
  have hsorted := @pairwise_sortByDistance target t.contacts h.nodup_contacts
  have hperm : (sortByDistance target t.contacts).Perm t.contacts := List.mergeSort_perm _ _
  unfold RoutingTable.closest
  refine ⟨by rw [List.length_take, hperm.length_eq], fun c hc => hperm.mem_iff.mp (List.mem_of_mem_take hc), hsorted.take, fun c hc => ?_⟩
  rw [← List.take_append_drop (min limit maxLookupQueries) (sortByDistance target t.contacts), List.pairwise_append] at hsorted
  have hin := hperm.mem_iff.mpr hc
  rw [← List.take_append_drop (min limit maxLookupQueries) (sortByDistance target t.contacts)] at hin
  obtain htaken | hleft := List.mem_append.mp hin
  · exact .inl htaken
  · exact .inr fun b hb => hsorted.2.2 b hb c hleft

end RoutingTable

/-! ## Generations -/

namespace Routing

open RoutingTable

variable {s : Routing} {c contact : Contact} {id : KadId} {now i : ℕ}

theorem ok_call (h : s.table.Ok) (a : Call) : (s.call a).table.Ok := by
  cases a with
  | insert contact now => exact ok_insert h
  | markAlive id now => exact ok_markAlive h
  | markFailed id => exact h.markFailed id
  | remove id => exact h.remove id
  | removeIfUnchanged expected => exact h.removeIfUnchanged expected
  | takesGeneration => exact h

theorem next_le_generation (s : Routing) : s.next ≤ s.nextRefreshGeneration.1 := by
  unfold nextRefreshGeneration
  dsimp only
  split <;> omega

/-- A contact that is put into the table is the one that was given, or has the generation that it is given now. -/
structure Placed (s s' : Routing) (contact : Contact) : Prop where
  stored : ∀ c, s'.table.Stored c → s.table.Stored c ∨ c = contact
  there : s'.table.Stored contact
  next : s'.next = s.next

theorem placed_place (s : Routing) (contact : Contact) (i : ℕ) : Placed s (s.place contact i).2 contact := by
  unfold place
  split
  · refine ⟨fun c hc => ?_, ?_, rfl⟩
    · obtain hold | hin := stored_setBucket (show (s.table.setBucket i _).Stored c from hc)
      · exact .inl hold
      · exact (List.mem_append.mp hin).imp stored_of_bucket List.mem_singleton.mp
    · refine ⟨i, List.mem_append_left _ ?_⟩
      unfold setIndex RoutingTable.setBucket
      dsimp only
      rw [Function.update_self]
      exact List.mem_append_right _ (List.mem_singleton_self _)
  · dsimp only
    split
    · rename_i position hposition
      obtain ⟨hlt, -, -⟩ := List.findIdx?_eq_some_iff_getElem.mp hposition
      refine ⟨fun c hc => ?_, ?_, rfl⟩
      · exact (stored_setReplacements hc).elim .inl fun hin => (List.mem_or_eq_of_mem_set hin).imp_left stored_of_replacements
      · refine ⟨i, List.mem_append_right _ ?_⟩
        unfold RoutingTable.setReplacements
        dsimp only
        rw [Function.update_self]
        exact List.mem_set hlt _
    · refine ⟨fun c hc => ?_, ?_, rfl⟩
      · obtain hold | hin := stored_setReplacements hc
        · exact .inl hold
        · obtain hin | hin := List.mem_append.mp hin
          · refine .inl (@stored_of_replacements s.table c i ?_)
            split at hin
            · exact List.mem_of_mem_drop hin
            · exact hin
          · exact .inr (List.mem_singleton.mp hin)
      · refine ⟨i, List.mem_append_right _ ?_⟩
        unfold RoutingTable.setReplacements
        dsimp only
        rw [Function.update_self]
        exact List.mem_append_right _ (List.mem_singleton_self _)

/-- What a call may leave in the table: the contacts of before, and one whose generation is new or that was given with its own. -/
def Brings (s s' : Routing) (given : Contact → Prop) : Prop :=
  s.next ≤ s'.next ∧ ∀ c, s'.table.Stored c → s.table.Stored c ∨ s.next ≤ c.refreshGeneration ∨ given c

/-- A refreshed contact goes to the end of its bucket. -/
theorem brings_refresh {k next : ℕ} {c' : Contact} (hgeneration : s.next ≤ c'.refreshGeneration) (hnext : s.next ≤ next) (given : Contact → Prop) :
    Brings s ⟨s.table.setBucket i ((s.table.buckets i).eraseIdx k ++ [c']), next⟩ given ∧
      RoutingTable.Stored (s.table.setBucket i ((s.table.buckets i).eraseIdx k ++ [c'])) c' := by
  refine ⟨⟨hnext, fun x hx => ?_⟩, i, List.mem_append_left _ ?_⟩
  · obtain hold | hin := stored_setBucket hx
    · exact .inl hold
    · obtain hin | hin := List.mem_append.mp hin
      · exact .inl (stored_of_bucket (List.mem_of_mem_eraseIdx hin))
      · rw [List.mem_singleton.mp hin]
        exact .inr (.inl hgeneration)
  · unfold RoutingTable.setBucket
    dsimp only
    rw [Function.update_self]
    exact List.mem_append_right _ (List.mem_singleton_self _)

theorem brings_insertNew (s : Routing) (contact : Contact) (i : ℕ) :
    Brings s (s.insertNew contact i).2 (fun c => c = contact ∧ contact.refreshGeneration ≠ 0) ∧
      ∃ c, (s.insertNew contact i).2.table.Stored c ∧ c.id = contact.id ∧ (s.next ≤ c.refreshGeneration ∨ c = contact ∧
          contact.refreshGeneration ≠ 0) := by
  have hgeneration := s.next_le_generation
  unfold insertNew
  split
  · have hplaced := placed_place s.nextRefreshGeneration.2 { contact with refreshGeneration := s.nextRefreshGeneration.1 } i
    refine ⟨⟨?_, fun c hc => ?_⟩, _, hplaced.there, rfl, .inl hgeneration⟩
    · rw [hplaced.next]
      exact Nat.le_succ _
    · obtain hold | rfl := hplaced.stored c hc
      · exact .inl hold
      · exact .inr (.inl hgeneration)
  · rename_i hown
    have hplaced := placed_place s contact i
    exact ⟨⟨hplaced.next.ge, fun c hc => (hplaced.stored c hc).imp_right fun he => .inr ⟨he, hown⟩⟩, _, hplaced.there, rfl, .inr ⟨rfl, hown⟩⟩

theorem brings_self (s : Routing) (given : Contact → Prop) : Brings s s given := ⟨le_rfl, fun _ hc => .inl hc⟩

/-- A contact that is inserted with the generation that it came with. -/
def Given (s : Routing) (contact c : Contact) : Prop :=
  c = contact ∧ contact.refreshGeneration ≠ 0 ∧ s.table.byId contact.id = none ∧ contact.isValidForRouting s.table.localId = true

theorem brings_insert (h : s.table.Ok) (contact : Contact) (now : ℕ) :
    Brings s (s.insert contact now).2 (s.Given contact) ∧
      (contact.isValidForRouting s.table.localId = true →
        ∃ c, (s.insert contact now).2.table.Stored c ∧ c.id = contact.id ∧ (s.next ≤ c.refreshGeneration ∨ s.Given contact c)) := by
  unfold insert
  split
  · rename_i hself
    refine ⟨s.brings_self _, fun hvalid => ?_⟩
    exact absurd hself (Contact.id_ne_of_isValidForRouting hvalid)
  split
  · rename_i hnone
    refine ⟨s.brings_self _, fun hvalid => ?_⟩
    exact absurd (KadId.eq_of_bucketIndex_none hnone).symm (Contact.id_ne_of_isValidForRouting hvalid)
  · rename_i index hid
    split
    · rename_i hinvalid
      refine ⟨s.brings_self _, fun hvalid => ?_⟩
      rw [hinvalid] at hvalid
      cases hvalid
    · rename_i hvalid
      have hvalid : contact.isValidForRouting s.table.localId = true := Bool.eq_true_of_not_eq_false hvalid
      split
      · rename_i hnone
        obtain ⟨hbrings, c, hthere, hsame, hfresh⟩ := s.brings_insertNew contact index
        exact ⟨⟨hbrings.1, fun c hc => (hbrings.2 c hc).imp_right fun hnew => hnew.imp_right fun hgiven => ⟨hgiven.1, hgiven.2, hnone, hvalid⟩⟩,
          fun _ => ⟨c, hthere, hsame, hfresh.imp_right fun hgiven => ⟨hgiven.1, hgiven.2, hnone, hvalid⟩⟩⟩
      · rename_i existing hexisting
        obtain ⟨k, c, hfind, hk, hsame⟩ := h.exists_position hexisting
        dsimp only
        rw [hfind]
        dsimp only
        rw [hk, Option.map_some, Option.toList_some]
        obtain ⟨hbrings, hthere⟩ := @brings_refresh s existing k (s.next + 1) (refreshed c contact now s.nextRefreshGeneration.1)
          s.next_le_generation (Nat.le_succ _) (s.Given contact)
        exact ⟨hbrings, fun _ => ⟨_, hthere, hsame, .inl s.next_le_generation⟩⟩

theorem brings_markAlive (h : s.table.Ok) (id : KadId) (now : ℕ) (given : Contact → Prop) :
    Brings s (s.markAlive id now).2 given ∧
      ((s.markAlive id now).1 = true → ∃ c, (s.markAlive id now).2.table.Stored c ∧ c.id = id ∧ s.next ≤ c.refreshGeneration) := by
  unfold markAlive
  split
  · exact ⟨s.brings_self _, nofun⟩
  · rename_i index hindex
    obtain ⟨k, c, hfind, hk, hsame⟩ := h.exists_position hindex
    rw [hfind]
    have htable : s.nextRefreshGeneration.2.table = s.table := rfl
    dsimp only
    rw [htable, hk, Option.map_some, Option.toList_some]
    obtain ⟨hbrings, hthere⟩ := @brings_refresh s index k (s.next + 1) (c.markSeen true now s.nextRefreshGeneration.1)
      s.next_le_generation (Nat.le_succ _) given
    exact ⟨hbrings, fun _ => ⟨_, hthere, hsame, s.next_le_generation⟩⟩

/-! ## Snapshots -/

/-- Whether the contact of an id is one that has been updated or marked alive since, or inserted from a value that was made with a generation from `n`
on. -/
def renewed (s : Routing) (n : ℕ) (id : KadId) (since : Bool) : Call → Bool
  | .insert contact _ =>
    if contact.id = id ∧ contact.isValidForRouting s.table.localId = true then
      (s.table.byId id).isSome || contact.refreshGeneration = 0 || n ≤ contact.refreshGeneration
    else since
  | .markAlive id' now => since || (id' = id && (s.markAlive id' now).1)
  | _ => since

/-- Every contact of the id has a generation from `n` on. -/
def Newer (s : Routing) (n : ℕ) (id : KadId) : Prop := ∀ c, s.table.Stored c → c.id = id → n ≤ c.refreshGeneration

variable {n : ℕ} {since : Bool}

/-- When a call has left a contact of the id with a new generation, there is no other. -/
theorem Newer.of_one (h : s.table.Ok) (hc : s.table.Stored c) (hn : n ≤ c.refreshGeneration) : s.Newer n c.id := by
  intro c' hc' hid
  rw [h.unique hc' hc hid]
  exact hn

theorem brings_call (h : s.table.Ok) (a : Call) :
    Brings s (s.call a) fun c => ∃ contact now, a = .insert contact now ∧ s.Given contact c := by
  have hshrinks : ∀ {table : RoutingTable}, (∀ c, table.Stored c → s.table.Stored c) → ∀ given, Brings s { s with table := table } given :=
    fun hsub given => ⟨le_rfl, fun c hc => .inl (hsub c hc)⟩
  cases a with
  | insert contact now =>
    obtain ⟨⟨hnext, hstored⟩, -⟩ := brings_insert h contact now
    exact ⟨hnext, fun c hc => (hstored c hc).imp_right fun hnew => hnew.imp_right fun hgiven => ⟨contact, now, rfl, hgiven⟩⟩
  | markAlive id now => exact (brings_markAlive h id now _).1
  | markFailed id => exact hshrinks (fun c hc => stored_markFailed hc) _
  | remove id => exact hshrinks (fun c hc => stored_remove h hc) _
  | removeIfUnchanged expected => exact hshrinks (fun c hc => stored_removeIfUnchanged h hc) _
  | takesGeneration => exact ⟨Nat.le_succ _, fun c hc => .inl hc⟩

theorem Newer.call (h : s.table.Ok) (hn : n ≤ s.next) (hnewer : since = true → s.Newer n id) (a : Call) :
    s.renewed n id since a = true → (s.call a).Newer n id := by
  intro hrenewed
  -- What was newer stays so, but for a contact that is inserted with an older generation.
  have hkeep : s.Newer n id → (∀ contact now c, a = .insert contact now → s.Given contact c → contact.id = id → n ≤ contact.refreshGeneration) →
      (s.call a).Newer n id := by
    intro hold hgiven c hc hid
    obtain hstored | hnew | ⟨contact, now, ha, hg⟩ := (brings_call h a).2 c hc
    · exact hold c hstored hid
    · exact hn.trans hnew
    · rw [hg.1] at hid ⊢
      exact hgiven contact now c ha hg hid
  cases a with
  | insert contact now =>
    unfold renewed at hrenewed
    dsimp only at hrenewed
    split at hrenewed
    · rename_i hinserts
      obtain ⟨rfl, hvalid⟩ := hinserts
      obtain ⟨c, hc, hid, hfresh⟩ := (brings_insert h contact now).2 hvalid
      rw [← hid]
      refine Newer.of_one (ok_insert h) hc (hfresh.elim hn.trans fun hgiven => ?_)
      rw [hgiven.2.2.1, Option.isSome_none, Bool.false_or, Bool.or_eq_true, decide_eq_true_eq, decide_eq_true_eq] at hrenewed
      rw [hgiven.1]
      exact hrenewed.resolve_left hgiven.2.1
    · rename_i hother
      refine hkeep (hnewer hrenewed) fun contact' now' c ha hgiven hid => ?_
      cases ha
      exact absurd ⟨hid, hgiven.2.2.2⟩ hother
  | markAlive id' now =>
    unfold renewed at hrenewed
    rw [Bool.or_eq_true, Bool.and_eq_true, decide_eq_true_eq] at hrenewed
    obtain hsince | ⟨rfl, halive⟩ := hrenewed
    · exact hkeep (hnewer hsince) nofun
    · obtain ⟨c, hc, hid, hfresh⟩ := (brings_markAlive h id' now fun _ => False).2 halive
      have hone := Newer.of_one (ok_markAlive h) hc (hn.trans hfresh)
      rw [hid] at hone
      exact hone
  | markFailed id => exact hkeep (hnewer hrenewed) nofun
  | remove id => exact hkeep (hnewer hrenewed) nofun
  | removeIfUnchanged expected => exact hkeep (hnewer hrenewed) nofun
  | takesGeneration => exact hkeep (hnewer hrenewed) nofun

end Routing

end Kad

end Risuko
