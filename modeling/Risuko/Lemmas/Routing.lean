import Risuko.Dht.Routing
import Risuko.Lib.Lists

/-!
# The invariant of the routing table

`RoutingTable.Ok` says that the buckets partition the distances, that every node is in the bucket of its distance, that no bucket holds
more than eight nodes, and that neither an id nor a host occurs twice. An operation changes one bucket (`Ok.setBucket`), changes
nothing that `Ok` reads (`Ok.congr`), splits a bucket (`Ok.splitBucket`) or starts anew.
-/

namespace Risuko

/-- The host a node counts as. -/
def RoutingNode.host (n : RoutingNode) : IpAddr := n.addr.ip.hostPrefix

namespace RoutingBucket

variable {b : RoutingBucket}

theorem matches_iff {d : Id20} : b.matches d = true ↔ ∀ i < b.prefixLen, d.bit i = b.path.bit i := by
  simp [«matches»]

theorem matches_root (now : Nat) (d : Id20) : (root now).matches d = true := rfl

/-- A child has the distances of its parent that go on with its bit. -/
theorem matches_child (hb : b.prefixLen < 160) (bit : Bool) (d : Id20) :
    (b.child bit).matches d = (b.matches d && decide (d.bit b.prefixLen = bit)) := by
  rw [Bool.eq_iff_iff, Bool.and_eq_true, decide_eq_true_iff, matches_iff, matches_iff]
  simp only [child, Id20.bit_setBit hb]
  constructor
  · intro h
    refine ⟨fun i hi => ?_, by simpa using h b.prefixLen (by omega)⟩
    have := h i (by omega)
    rwa [if_neg (by omega)] at this
  · rintro ⟨h, hbit⟩ i hi
    by_cases he : i = b.prefixLen
    · rw [if_pos he, he, hbit]
    · rw [if_neg he]
      exact h i (by omega)

/-- The distances a bucket takes depend on its path alone. -/
theorem matches_congr {b' : RoutingBucket} (hpath : b'.path = b.path) (hlen : b'.prefixLen = b.prefixLen) :
    b'.matches = b.matches := by
  funext d
  simp only [«matches», hpath, hlen]

end RoutingBucket

namespace RoutingTable

variable {t t' : RoutingTable} {n : RoutingNode} {b : RoutingBucket} {bs : List RoutingBucket}
variable {idx : Fin t.buckets.length} {d id : Id20} {addr : SocketAddr} {liveness : RoutingLiveness}

/-- What holds of every routing table. -/
structure Ok (t : RoutingTable) : Prop where
  covers : Partitions RoutingBucket.matches t.buckets
  depth : ∀ b ∈ t.buckets, b.prefixLen ≤ 160
  placed : ∀ b ∈ t.buckets, ∀ n ∈ b.nodes, b.matches (t.ourId.distance n.id) = true
  small : ∀ b ∈ t.buckets, b.nodes.length ≤ bucketSize
  foreign : ∀ n ∈ t.nodes, n.id ≠ t.ourId
  ids : (t.nodes.map (·.id)).Nodup
  hosts : (t.nodes.map (·.host)).Nodup

theorem mem_nodes : n ∈ t.nodes ↔ ∃ b ∈ t.buckets, n ∈ b.nodes := List.mem_flatMap

theorem nodes_of_split {done rest : List RoutingBucket} (h : t.buckets = done ++ b :: rest) :
    t.nodes = done.flatMap (·.nodes) ++ b.nodes ++ rest.flatMap (·.nodes) := by
  simp [nodes, h]

/-- A table with one empty bucket. -/
theorem ok_root (ourId : Id20) (idChanged : Option Nat) (now : Nat) :
    Ok { ourId := ourId, idChanged := idChanged, buckets := [RoutingBucket.root now] } where
  covers := partitions_singleton (RoutingBucket.matches_root now)
  depth b hb := by
    rw [List.mem_singleton] at hb
    subst hb
    exact Nat.zero_le _
  placed b hb n hn := by
    rw [List.mem_singleton] at hb
    subst hb
    cases hn
  small b hb := by
    rw [List.mem_singleton] at hb
    subst hb
    exact Nat.zero_le _
  foreign n hn := by simp [nodes, RoutingBucket.root] at hn
  ids := by simp [nodes, RoutingBucket.root]
  hosts := by simp [nodes, RoutingBucket.root]

/-! ## Changing one bucket -/

/-- Replacing the nodes of one bucket, with no more than eight in their place that belong there. -/
theorem Ok.setBucket {done rest : List RoutingBucket} {b' : RoutingBucket} (h : Ok t)
    (hb : t.buckets = done ++ b :: rest) (hb' : t'.buckets = done ++ b' :: rest) (hid : t'.ourId = t.ourId)
    (hpath : b'.path = b.path) (hlen : b'.prefixLen = b.prefixLen)
    (hplaced : ∀ n ∈ b'.nodes, b.matches (t.ourId.distance n.id) = true ∧ n.id ≠ t.ourId) (hsmall : b'.nodes.length ≤ bucketSize)
    (hids : (t'.nodes.map (·.id)).Nodup) (hhosts : (t'.nodes.map (·.host)).Nodup) : Ok t' := by
  have hmem : ∀ c ∈ t'.buckets, c = b' ∨ c ∈ t.buckets := by
    intro c hc
    rw [hb'] at hc
    rw [hb]
    simp only [List.mem_append, List.mem_cons] at hc ⊢
    tauto
  have hbt : b ∈ t.buckets := by simp [hb]
  have hm := RoutingBucket.matches_congr hpath hlen
  constructor
  · refine h.covers.congr ?_
    rw [hb, hb']
    refine List.rel_append ?_ (.cons hm ?_) <;> exact List.forall₂_same.mpr fun _ _ => rfl
  · intro c hc
    rcases hmem c hc with rfl | hc
    · rw [hlen]
      exact h.depth b hbt
    · exact h.depth c hc
  · intro c hc n hn
    rw [hid]
    rcases hmem c hc with rfl | hc
    · rw [hm]
      exact (hplaced n hn).1
    · exact h.placed c hc n hn
  · intro c hc
    rcases hmem c hc with rfl | hc
    · exact hsmall
    · exact h.small c hc
  · intro n hn
    rw [hid]
    obtain ⟨c, hc, hnc⟩ := mem_nodes.mp hn
    rcases hmem c hc with rfl | hc
    · exact (hplaced n hnc).2
    · exact h.foreign n (mem_nodes.mpr ⟨c, hc, hnc⟩)
  · exact hids
  · exact hhosts

/-- `b'` is `b` with nodes whose ids and hosts are the same, one for one. -/
def Alike (b b' : RoutingBucket) : Prop :=
  b'.path = b.path ∧ b'.prefixLen = b.prefixLen
    ∧ b'.nodes.map (fun n => (n.id, n.host)) = b.nodes.map fun n => (n.id, n.host)

theorem Alike.refl (b : RoutingBucket) : Alike b b := ⟨rfl, rfl, rfl⟩

theorem nodes_of_alike {bs' : List RoutingBucket} (h : List.Forall₂ Alike bs bs') :
    (bs'.flatMap (·.nodes)).map (fun n => (n.id, n.host)) = (bs.flatMap (·.nodes)).map fun n => (n.id, n.host) := by
  induction h with
  | nil => rfl
  | cons hab _ ih => rw [List.flatMap_cons, List.flatMap_cons, List.map_append, List.map_append, hab.2.2, ih]

/-- `Ok` reads only the paths, the ids and the hosts. -/
theorem Ok.congr (h : Ok t) (hid : t'.ourId = t.ourId) (hb : List.Forall₂ Alike t.buckets t'.buckets) :
    Ok t' := by
  have hkeys : t'.nodes.map (fun n => (n.id, n.host)) = t.nodes.map fun n => (n.id, n.host) := nodes_of_alike hb
  have hids : t'.nodes.map (·.id) = t.nodes.map (·.id) := by
    simpa only [List.map_map, Function.comp_def] using congrArg (List.map Prod.fst) hkeys
  have hhosts : t'.nodes.map (·.host) = t.nodes.map (·.host) := by
    simpa only [List.map_map, Function.comp_def] using congrArg (List.map Prod.snd) hkeys
  have hmem : ∀ b' ∈ t'.buckets, ∃ b ∈ t.buckets, Alike b b' := by
    intro b' hb'
    obtain ⟨i, hi, rfl⟩ := List.getElem_of_mem hb'
    have hlt : i < t.buckets.length := by rwa [hb.length_eq]
    exact ⟨_, List.getElem_mem hlt, List.forall₂_iff_get.mp hb |>.2 i hlt hi⟩
  constructor
  · exact h.covers.congr (hb.imp fun _ _ hab => RoutingBucket.matches_congr hab.1 hab.2.1)
  · intro b' hb'
    obtain ⟨b, hbt, hab⟩ := hmem b' hb'
    rw [hab.2.1]
    exact h.depth b hbt
  · intro b' hb' n hn
    obtain ⟨b, hbt, hab⟩ := hmem b' hb'
    have : (n.id, n.host) ∈ b.nodes.map fun n => (n.id, n.host) := by
      rw [← hab.2.2]
      exact List.mem_map_of_mem hn
    obtain ⟨m, hm, he⟩ := List.mem_map.mp this
    rw [RoutingBucket.matches_congr hab.1 hab.2.1, hid, ← (Prod.mk.inj he).1]
    exact h.placed b hbt m hm
  · intro b' hb'
    obtain ⟨b, hbt, hab⟩ := hmem b' hb'
    have hlen := congrArg List.length hab.2.2
    rw [List.length_map, List.length_map] at hlen
    rw [hlen]
    exact h.small b hbt
  · intro n hn
    have : n.id ∈ t.nodes.map (·.id) := by
      rw [← hids]
      exact List.mem_map_of_mem hn
    obtain ⟨m, hm, he⟩ := List.mem_map.mp this
    rw [hid, ← he]
    exact h.foreign m hm
  · rw [hids]
    exact h.ids
  · rw [hhosts]
    exact h.hosts

theorem nodup_map_of_subperm {α β : Type*} (f : α → β) {l l' : List α} (h : l.Subperm l') (hn : (l'.map f).Nodup) :
    (l.map f).Nodup := by
  obtain ⟨m, hperm, hsub⟩ := h
  exact (hperm.map f).nodup_iff.mp (hn.sublist (hsub.map f))

theorem buckets_eq (t : RoutingTable) (idx : Fin t.buckets.length) :
    t.buckets = t.buckets.take idx ++ t.buckets.get idx :: t.buckets.drop (idx + 1) := by
  simp

/-- The table with other nodes in one bucket, `extra` ones among them that belong there. -/
theorem Ok.put (h : Ok t) (idx : Fin t.buckets.length) {extra nodes' : List RoutingNode} (changed : Nat)
    (hsub : nodes'.Subperm (extra ++ (t.buckets.get idx).nodes))
    (hextra : ∀ n ∈ extra, (t.buckets.get idx).matches (t.ourId.distance n.id) = true ∧ n.id ≠ t.ourId)
    (hids : ((extra ++ t.nodes).map (·.id)).Nodup) (hhosts : ((extra ++ t.nodes).map (·.host)).Nodup)
    (hsmall : nodes'.length ≤ bucketSize) :
    Ok { t with buckets := t.buckets.set idx { t.buckets.get idx with nodes := nodes', lastChanged := changed } }
      ∧ (nodes { t with buckets := t.buckets.set idx { t.buckets.get idx with nodes := nodes', lastChanged := changed } }).Subperm
        (extra ++ t.nodes) := by
  have hset : t.buckets.set idx { t.buckets.get idx with nodes := nodes', lastChanged := changed }
      = t.buckets.take idx ++ { t.buckets.get idx with nodes := nodes', lastChanged := changed } :: t.buckets.drop (idx + 1) := by
    rw [List.set_eq_take_append_cons_drop, if_pos idx.isLt]
  have hnodes : (nodes { t with buckets := t.buckets.set idx { t.buckets.get idx with nodes := nodes', lastChanged := changed } }).Subperm
      (extra ++ t.nodes) := by
    rw [nodes_of_split hset, nodes_of_split (buckets_eq t idx)]
    refine ((List.subperm_append_right _).mpr ((List.subperm_append_left _).mpr hsub)).trans (List.Perm.subperm ?_)
    rw [← List.append_assoc, ← List.append_assoc, ← List.append_assoc]
    exact (List.perm_append_comm.append_right _).append_right _
  refine ⟨h.setBucket (buckets_eq t idx) hset rfl rfl rfl ?_ hsmall ?_ ?_, hnodes⟩
  · intro n hn
    rcases List.mem_append.mp (hsub.subset hn) with hn | hn
    · exact hextra n hn
    · have hb : t.buckets.get idx ∈ t.buckets := List.get_mem _ _
      exact ⟨h.placed _ hb n hn, h.foreign n (mem_nodes.mpr ⟨_, hb, hn⟩)⟩
  · exact nodup_map_of_subperm _ hnodes hids
  · exact nodup_map_of_subperm _ hnodes hhosts

/-! ## Splitting a bucket -/

theorem nodes_splitBucket (t : RoutingTable) (idx : Fin t.buckets.length) : (t.splitBucket idx).nodes.Perm t.nodes := by
  rw [nodes_of_split (buckets_eq t idx)]
  simp only [nodes, splitBucket, List.partition_eq_filter_filter, List.flatMap_append, List.flatMap_cons, ← List.append_assoc]
  refine List.Perm.append_right _ ?_
  rw [List.append_assoc]
  exact (List.filter_append_perm _ _).append_left _

/-- `c` is a child of `b` with the nodes that go on with its bit. -/
def IsChild (t : RoutingTable) (b : RoutingBucket) (bit : Bool) (c : RoutingBucket) : Prop :=
  c.path = (b.child bit).path ∧ c.prefixLen = b.prefixLen + 1
    ∧ c.nodes = b.nodes.filter fun n => (t.ourId.distance n.id).bit b.prefixLen = bit

theorem exists_child (t : RoutingTable) (idx : Fin t.buckets.length) (bit : Bool) :
    ∃ c ∈ (t.splitBucket idx).buckets, IsChild t (t.buckets.get idx) bit c := by
  simp only [splitBucket, List.partition_eq_filter_filter]
  cases bit with
  | false => exact ⟨_, List.mem_append_right _ List.mem_cons_self, rfl, rfl, rfl⟩
  | true =>
    refine ⟨_, List.mem_append_right _ (List.mem_cons_of_mem _ List.mem_cons_self), rfl, rfl, List.filter_congr fun n _ => ?_⟩
    rw [Function.comp_apply]
    cases (t.ourId.distance n.id).bit (t.buckets.get idx).prefixLen <;> rfl

/-- A bucket of the split table is one of the two children or was there before. -/
theorem mem_splitBucket {c : RoutingBucket} (hc : c ∈ (t.splitBucket idx).buckets) :
    c ∈ t.buckets ∨ ∃ bit, IsChild t (t.buckets.get idx) bit c := by
  simp only [splitBucket, List.partition_eq_filter_filter] at hc
  rcases List.mem_append.mp hc with hc | hc
  · exact .inl (List.mem_of_mem_take hc)
  · rcases List.mem_cons.mp hc with rfl | hc
    · exact .inr ⟨false, rfl, rfl, rfl⟩
    · rcases List.mem_cons.mp hc with rfl | hc
      · refine .inr ⟨true, rfl, rfl, List.filter_congr fun n _ => ?_⟩
        rw [Function.comp_apply]
        cases (t.ourId.distance n.id).bit (t.buckets.get idx).prefixLen <;> rfl
      · exact .inl (List.mem_of_mem_drop hc)

theorem Ok.splitBucket (h : Ok t) (idx : Fin t.buckets.length) (hlen : (t.buckets.get idx).prefixLen < 160) :
    Ok (t.splitBucket idx) := by
  have hb : t.buckets.get idx ∈ t.buckets := List.get_mem _ _
  have hnodes := nodes_splitBucket t idx
  constructor
  · simp only [RoutingTable.splitBucket]
    refine Partitions.split (c := t.buckets.get idx) (by rw [← buckets_eq]; exact h.covers) fun d => ?_
    change (((t.buckets.get idx).child false).matches d).toNat + (((t.buckets.get idx).child true).matches d).toNat = _
    rw [RoutingBucket.matches_child hlen, RoutingBucket.matches_child hlen]
    cases (t.buckets.get idx).matches d <;> cases d.bit (t.buckets.get idx).prefixLen <;> rfl
  · intro c hc
    rcases mem_splitBucket hc with hc | ⟨bit, -, hclen, -⟩
    · exact h.depth c hc
    · omega
  · intro c hc n hn
    change c.matches (t.ourId.distance n.id) = true
    rcases mem_splitBucket hc with hc | ⟨bit, hpath, hclen, hcn⟩
    · exact h.placed c hc n hn
    · rw [hcn] at hn
      obtain ⟨hn, hbit⟩ := List.mem_filter.mp hn
      rw [RoutingBucket.matches_congr hpath hclen, RoutingBucket.matches_child hlen, h.placed _ hb n hn]
      simpa using hbit
  · intro c hc
    rcases mem_splitBucket hc with hc | ⟨bit, -, -, hcn⟩
    · exact h.small c hc
    · rw [hcn]
      exact (List.length_filter_le _ _).trans (h.small _ hb)
  · intro n hn
    exact h.foreign n (hnodes.mem_iff.mp hn)
  · exact (hnodes.map _).nodup_iff.mpr h.ids
  · exact (hnodes.map _).nodup_iff.mpr h.hosts

/-! ## Finding a bucket -/

/-- Every distance has its bucket. -/
theorem Ok.exists_bucketIndex (h : Ok t) (d : Id20) : ∃ idx, t.bucketIndex d = some idx := by
  obtain ⟨b, hb, hm⟩ := h.covers.exists_mem d
  cases hi : t.bucketIndex d with
  | some idx => exact ⟨idx, rfl⟩
  | none =>
    have := List.findFinIdx?_eq_none_iff.mp hi b hb
    exact absurd hm this

theorem matches_bucketIndex (h : t.bucketIndex d = some idx) :
    (t.buckets.get idx).matches d = true :=
  (List.findFinIdx?_eq_some_iff.mp h).1

/-- Two buckets that take one distance are the same. -/
theorem Ok.eq_of_matches (h : Ok t) {c : RoutingBucket} (hb : b ∈ t.buckets) (hc : c ∈ t.buckets)
    (hbd : b.matches d = true) (hcd : c.matches d = true) : c = b := by
  obtain ⟨done, rest, hsplit⟩ := List.append_of_mem hb
  have hcov := h.covers
  rw [hsplit] at hcov hc
  exact hcov.eq_of_mem hbd hc hcd

/-- After a split the path of the bucket that takes a distance of the split bucket is longer by a bit. -/
theorem Ok.prefixLen_splitBucket (h : Ok t)
    (hm : (t.buckets.get idx).matches d = true) (hlen : (t.buckets.get idx).prefixLen < 160) :
    ∀ b ∈ (t.splitBucket idx).buckets, b.matches d = true → b.prefixLen = (t.buckets.get idx).prefixLen + 1 := by
  intro b hb hbd
  obtain ⟨c, hc, hpath, hclen, -⟩ := exists_child t idx (d.bit (t.buckets.get idx).prefixLen)
  have hcd : c.matches d = true := by
    rw [RoutingBucket.matches_congr hpath hclen, RoutingBucket.matches_child hlen, hm]
    simp
  rw [(h.splitBucket idx hlen).eq_of_matches hc hb hcd hbd, hclen]

/-! ## Inserting a node -/

/-- No node has the id or the host of `n`. -/
def Apart (t : RoutingTable) (n : RoutingNode) : Prop := n.id ≠ t.ourId ∧ ∀ m ∈ t.nodes, m.id ≠ n.id ∧ m.host ≠ n.host

theorem Apart.ids (h : Ok t) (ha : Apart t n) : (([n] ++ t.nodes).map (·.id)).Nodup := by
  rw [List.singleton_append, List.map_cons, List.nodup_cons]
  refine ⟨fun hmem => ?_, h.ids⟩
  obtain ⟨m, hm, he⟩ := List.mem_map.mp hmem
  exact (ha.2 m hm).1 he

theorem Apart.hosts (h : Ok t) (ha : Apart t n) :
    (([n] ++ t.nodes).map (·.host)).Nodup := by
  rw [List.singleton_append, List.map_cons, List.nodup_cons]
  refine ⟨fun hmem => ?_, h.hosts⟩
  obtain ⟨m, hm, he⟩ := List.mem_map.mp hmem
  exact (ha.2 m hm).2 he

theorem set_subperm {α : Type*} (L : List α) (i : Nat) (x : α) : (L.set i x).Subperm (x :: L) := by
  by_cases hi : i < L.length
  · rw [List.set_eq_take_append_cons_drop, if_pos hi]
    refine (List.perm_middle.subperm).trans ((List.subperm_cons x).mpr (List.Sublist.subperm ?_))
    conv_rhs => rw [← List.take_append_drop (i + 1) L]
    exact (List.take_sublist_take_left (by omega)).append_right _
  · rw [List.set_eq_of_length_le (by omega)]
    exact List.Subperm.cons_self

/-- What an insertion makes of a table: it ends, and the new node is added to some of those that were there. -/
def Inserted (t : RoutingTable) (fresh : RoutingNode) (result : Option RoutingTable) : Prop :=
  ∃ t', result = some t' ∧ Ok t' ∧ t'.ourId = t.ourId ∧ t'.nodes.Subperm (fresh :: t.nodes)

theorem Ok.inserted_self (h : Ok t) (fresh : RoutingNode) : Inserted t fresh (some t) :=
  ⟨t, rfl, h, rfl, List.Subperm.cons_self⟩

/-- The loop ends: each split makes the path of the bucket longer that the node belongs to. -/
theorem Ok.insertLoop {fresh : RoutingNode} {now : Nat} (fuel : Nat) (h : Ok t) (ha : Apart t fresh)
    (hfuel : ∀ b ∈ t.buckets, b.matches (t.ourId.distance fresh.id) = true → 160 < fuel + b.prefixLen) :
    Inserted t fresh (RoutingTable.insertLoop fresh now fuel t) := by
  induction fuel generalizing t with
  | zero =>
    obtain ⟨b, hb, hm⟩ := h.covers.exists_mem (t.ourId.distance fresh.id)
    have := hfuel b hb hm
    have := h.depth b hb
    omega
  | succ fuel ih =>
    obtain ⟨idx, hidx⟩ := h.exists_bucketIndex (t.ourId.distance fresh.id)
    have hm := matches_bucketIndex hidx
    have hb : t.buckets.get idx ∈ t.buckets := List.get_mem _ _
    have hput : ∀ nodes' : List RoutingNode, nodes'.Subperm ([fresh] ++ (t.buckets.get idx).nodes) → nodes'.length ≤ bucketSize →
        Inserted t fresh
          (some { t with buckets := t.buckets.set idx { t.buckets.get idx with nodes := nodes', lastChanged := now } }) := by
      intro nodes' hsub hlen
      obtain ⟨hok, hnodes⟩ := h.put idx now hsub (by
        intro n hn
        rw [List.mem_singleton] at hn
        subst hn
        exact ⟨hm, ha.1⟩) (ha.ids h) (ha.hosts h) hlen
      exact ⟨_, rfl, hok, rfl, hnodes⟩
    simp only [RoutingTable.insertLoop, hidx]
    split
    · rename_i hroom
      refine hput _ List.perm_append_comm.subperm ?_
      rw [List.length_append, List.length_singleton]
      exact hroom
    · split
      · rename_i hsplit
        rw [Bool.and_eq_true, decide_eq_true_iff] at hsplit
        have hnodes := nodes_splitBucket t idx
        obtain ⟨t', ht', hok, hid, hsub⟩ := ih (h.splitBucket idx hsplit.2)
          ⟨ha.1, fun m hm => ha.2 m (hnodes.mem_iff.mp hm)⟩ (by
          intro b hb' hm'
          rw [h.prefixLen_splitBucket hm hsplit.2 b hb' hm']
          have := hfuel _ hb hm
          omega)
        exact ⟨t', ht', hok, hid, hsub.trans (hnodes.cons fresh).subperm⟩
      · split
        · rename_i i _
          refine hput _ (set_subperm _ i fresh) ?_
          rw [List.length_set]
          exact h.small _ hb
        · exact h.inserted_self fresh

theorem Ok.insertNode (h : Ok t) {fresh : RoutingNode} {now : Nat}
    (ha : ∀ m ∈ t.nodes, m.id ≠ fresh.id ∧ m.host ≠ fresh.host) : Inserted t fresh (t.insertNode fresh now) := by
  unfold RoutingTable.insertNode
  split
  · exact h.inserted_self fresh
  · rename_i hd
    refine h.insertLoop 161 ⟨fun he => hd ?_, ha⟩ (by omega)
    rw [Id20.distance_eq_zero_iff, he]

/-! ## Changing our own id -/

/-- Putting nodes back into a table, one after the other. -/
theorem Ok.foldlM_insertNode (clock : RoutingNode → Nat) (rest : List RoutingNode) (h : Ok t)
    (hids : ((rest ++ t.nodes).map (·.id)).Nodup) (hhosts : ((rest ++ t.nodes).map (·.host)).Nodup) :
    ∃ t', rest.foldlM (fun t node => t.insertNode node (clock node)) t = some t' ∧ Ok t' ∧ t'.ourId = t.ourId := by
  induction rest generalizing t with
  | nil => exact ⟨t, rfl, h, rfl⟩
  | cons n rest ih =>
    have hapart : ∀ m ∈ t.nodes, m.id ≠ n.id ∧ m.host ≠ n.host := by
      rw [List.cons_append, List.map_cons, List.nodup_cons] at hids hhosts
      intro m hm
      refine ⟨fun he => hids.1 ?_, fun he => hhosts.1 ?_⟩
      · rw [← he]
        exact List.mem_map_of_mem (List.mem_append_right _ hm)
      · rw [← he]
        exact List.mem_map_of_mem (List.mem_append_right _ hm)
    obtain ⟨t₁, ht₁, hok, hid, hsub⟩ := @Ok.insertNode _ h n (clock n) hapart
    have hrest : (rest ++ t₁.nodes).Subperm (n :: rest ++ t.nodes) :=
      ((List.subperm_append_left rest).mpr hsub).trans List.perm_middle.subperm
    obtain ⟨t', ht', hok', hid'⟩ := ih hok (nodup_map_of_subperm _ hrest hids) (nodup_map_of_subperm _ hrest hhosts)
    refine ⟨t', ?_, hok', hid'.trans hid⟩
    rw [List.foldlM_cons, ht₁]
    exact ht'

theorem Ok.setNodeId (h : Ok t) (ourId : Id20) (now later : Nat) (clock : RoutingNode → Nat) :
    ∃ t', t.setNodeId ourId now later clock = some t' ∧ Ok t' := by
  have hsub : (((t.nodes.filter fun node : RoutingNode => node.liveness ≠ RoutingLiveness.bad).mergeSort keptBefore) ++ []).Subperm t.nodes := by
    rw [List.append_nil]
    exact (List.mergeSort_perm _ _).subperm.trans List.filter_sublist.subperm
  obtain ⟨t', ht', hok, -⟩ := (ok_root ourId (some now) later).foldlM_insertNode clock _
    (nodup_map_of_subperm _ hsub h.ids) (nodup_map_of_subperm _ hsub h.hosts)
  exact ⟨t', ht', hok⟩

/-! ## Making room -/

/-- The node gives way to a new one with this liveness at `addr`. -/
def Replaceable (addr : SocketAddr) (liveness : RoutingLiveness) (n : RoutingNode) : Prop :=
  n.liveness = .bad ∨ (liveness = .good ∧ (n.liveness = .questionable ∨ n.addr = addr))

/-- The conflict the scan ends with is that of a node in the way that gives way; without one there is none. -/
theorem findConflict_spec (L : List ((Nat × Nat) × RoutingNode))
    {c c' : Option (Nat × Nat)} (h : findConflict id addr liveness L c = some c') :
    (c' = c ∧ ∀ p ∈ L, conflicts id addr p.2 = false)
      ∨ ∃ p ∈ L, c' = some p.1 ∧ conflicts id addr p.2 = true ∧ Replaceable addr liveness p.2 := by
  induction L generalizing c with
  | nil =>
    cases h
    exact .inl ⟨rfl, fun p hp => absurd hp List.not_mem_nil⟩
  | cons p rest ih =>
    obtain ⟨place, node⟩ := p
    simp only [findConflict] at h
    split at h
    · rename_i hno
      rw [Bool.not_eq_true'] at hno
      rcases ih h with ⟨rfl, hall⟩ | ⟨p, hp, hc⟩
      · refine .inl ⟨rfl, fun p hp => ?_⟩
        rcases List.mem_cons.mp hp with rfl | hp
        · exact hno
        · exact hall p hp
      · exact .inr ⟨p, List.mem_cons_of_mem _ hp, hc⟩
    · rename_i hconf
      split at h
      · rename_i hgives
        refine .inr ?_
        rcases ih h with ⟨rfl, -⟩ | ⟨p, hp, hc⟩
        · exact ⟨(place, node), List.mem_cons_self, rfl, by simpa using hconf, by simpa [Replaceable] using hgives⟩
        · exact ⟨p, List.mem_cons_of_mem _ hp, hc⟩
      · cases h

/-- The scan is given up over a node in the way that does not give way. -/
theorem findConflict_none (L : List ((Nat × Nat) × RoutingNode))
    {c : Option (Nat × Nat)} (h : findConflict id addr liveness L c = none) :
    ∃ p ∈ L, conflicts id addr p.2 = true ∧ ¬ Replaceable addr liveness p.2 := by
  induction L generalizing c with
  | nil => cases h
  | cons p rest ih =>
    obtain ⟨place, node⟩ := p
    simp only [findConflict] at h
    split at h
    · obtain ⟨p, hp, hc⟩ := ih h
      exact ⟨p, List.mem_cons_of_mem _ hp, hc⟩
    · rename_i hconf
      split at h
      · obtain ⟨p, hp, hc⟩ := ih h
        exact ⟨p, List.mem_cons_of_mem _ hp, hc⟩
      · rename_i hkeeps
        exact ⟨(place, node), List.mem_cons_self, by simpa using hconf, by simpa [Replaceable] using hkeeps⟩

theorem mem_places {p : (Nat × Nat) × RoutingNode} :
    p ∈ places bs ↔ ∃ b, bs[p.1.1]? = some b ∧ b.nodes[p.1.2]? = some p.2 := by
  obtain ⟨⟨i, j⟩, n⟩ := p
  simp only [places, List.mem_flatMap, List.mem_map, Prod.exists]
  constructor
  · rintro ⟨b, i', hb, n', j', hn, he⟩
    cases he
    exact ⟨b, List.mem_zipIdx_iff_getElem?.mp hb, List.mem_zipIdx_iff_getElem?.mp hn⟩
  · rintro ⟨b, hb, hn⟩
    exact ⟨b, i, List.mem_zipIdx_iff_getElem?.mpr hb, n, j, List.mem_zipIdx_iff_getElem?.mpr hn, rfl⟩

/-- The table without one node. -/
def without (t : RoutingTable) (idx : Fin t.buckets.length) (j : Nat) : RoutingTable :=
  { t with buckets := t.buckets.set idx { t.buckets.get idx with nodes := (t.buckets.get idx).nodes.eraseIdx j } }

/-- Taking a node out of its bucket. -/
theorem Ok.without (h : Ok t) (idx : Fin t.buckets.length) {j : Nat}
    (hn : (t.buckets.get idx).nodes[j]? = some n) : Ok (t.without idx j) ∧ t.nodes.Perm (n :: (t.without idx j).nodes) := by
  have hperm := cons_eraseIdx_perm hn
  constructor
  · refine (@Ok.put t h idx [] _ (t.buckets.get idx).lastChanged (List.eraseIdx_sublist _ j).subperm
      (fun n hn => absurd hn List.not_mem_nil) h.ids h.hosts ?_).1
    exact (List.eraseIdx_sublist _ j).length_le.trans (h.small _ (List.get_mem _ _))
  · rw [nodes_of_split (buckets_eq t idx), RoutingTable.without,
      nodes_of_split (t := { t with buckets := _ }) (by rw [List.set_eq_take_append_cons_drop, if_pos idx.isLt]), ← List.cons_append]
    refine List.Perm.append_right _ ?_
    exact (hperm.symm.append_left _).trans List.perm_middle

theorem conflicts_iff :
    conflicts id addr n = true ↔ n.id ≠ id ∧ n.host = addr.ip.hostPrefix := by
  simp [conflicts, RoutingNode.host]

theorem mem_nodes_of_mem_places {p : (Nat × Nat) × RoutingNode} (hp : p ∈ places t.buckets) : p.2 ∈ t.nodes := by
  obtain ⟨b, hb, hn⟩ := mem_places.mp hp
  exact mem_nodes.mpr ⟨b, List.mem_of_getElem? hb, List.mem_of_getElem? hn⟩

theorem exists_mem_places (hn : n ∈ t.nodes) : ∃ place, (place, n) ∈ places t.buckets := by
  obtain ⟨b, hb, hnb⟩ := mem_nodes.mp hn
  obtain ⟨i, hi⟩ := List.mem_iff_getElem?.mp hb
  obtain ⟨j, hj⟩ := List.mem_iff_getElem?.mp hnb
  exact ⟨(i, j), mem_places.mpr ⟨b, hi, hj⟩⟩

/-- Room is made where no node has the host, or by taking out the one that has it and gives way. -/
theorem makeRoomForHost_some
    (hid : ∀ n ∈ t.nodes, n.id ≠ id) (ht : t.makeRoomForHost id addr liveness = some t') :
    (t' = t ∧ ∀ n ∈ t.nodes, n.host ≠ addr.ip.hostPrefix)
      ∨ ∃ idx j n, (t.buckets.get idx).nodes[j]? = some n ∧ n.host = addr.ip.hostPrefix ∧ Replaceable addr liveness n
        ∧ t' = t.without idx j := by
  obtain ⟨c, hc, rfl⟩ := Option.map_eq_some_iff.mp ht
  rcases findConflict_spec _ hc with ⟨rfl, hall⟩ | ⟨⟨⟨i, j⟩, n⟩, hp, rfl, hconf, hgives⟩
  · refine .inl ⟨rfl, fun n hn hhost => ?_⟩
    obtain ⟨place, hplace⟩ := exists_mem_places hn
    have hno := hall _ hplace
    rw [conflicts_iff.mpr ⟨hid n hn, hhost⟩] at hno
    cases hno
  · obtain ⟨b, hi, hj⟩ := mem_places.mp hp
    dsimp only at hi hj
    obtain ⟨hlt, rfl⟩ := List.getElem?_eq_some_iff.mp hi
    refine .inr ⟨⟨i, hlt⟩, j, n, hj, (conflicts_iff.mp hconf).2, hgives, ?_⟩
    simp only [RoutingTable.without, List.modify_eq_set_getElem?, hi]
    rfl

/-- After room was made no node has the host. -/
theorem Ok.makeRoomForHost (h : Ok t)
    (hid : ∀ n ∈ t.nodes, n.id ≠ id) (ht : t.makeRoomForHost id addr liveness = some t') :
    Ok t' ∧ ∀ n ∈ t'.nodes, n.id ≠ id ∧ n.host ≠ addr.ip.hostPrefix := by
  rcases makeRoomForHost_some hid ht with ⟨rfl, hno⟩ | ⟨idx, j, n, hn, hhost, -, rfl⟩
  · exact ⟨h, fun n hn => ⟨hid n hn, hno n hn⟩⟩
  · obtain ⟨hok, hperm⟩ := h.without idx hn
    refine ⟨hok, fun m hm => ⟨hid m (hperm.mem_iff.mpr (List.mem_cons_of_mem _ hm)), fun hm' => ?_⟩⟩
    have hhosts := (hperm.map RoutingNode.host).nodup_iff.mp h.hosts
    rw [List.map_cons, List.nodup_cons] at hhosts
    refine hhosts.1 ?_
    rw [hhost, ← hm']
    exact List.mem_map_of_mem hm

/-! ## Adding a node -/

theorem alike_set {i : Nat} {b' : RoutingBucket} (hb : bs[i]? = some b) (hab : Alike b b') :
    List.Forall₂ Alike bs (bs.set i b') := by
  rw [List.forall₂_iff_get]
  refine ⟨(List.length_set).symm, fun k hk hk' => ?_⟩
  simp only [List.get_eq_getElem, List.getElem_set]
  split
  · rename_i he
    subst he
    rw [List.getElem?_eq_getElem hk] at hb
    cases hb
    exact hab
  · exact Alike.refl _

/-- A node with the id is in the bucket of the id. -/
theorem Ok.mem_bucket (h : Ok t)
    (hidx : t.bucketIndex (t.ourId.distance id) = some idx) (hn : n ∈ t.nodes) (he : n.id = id) :
    n ∈ (t.buckets.get idx).nodes := by
  obtain ⟨b, hb, hnb⟩ := mem_nodes.mp hn
  have hm := h.placed b hb n hnb
  rw [he] at hm
  rw [← h.eq_of_matches (List.get_mem _ _) hb (matches_bucketIndex hidx) hm]
  exact hnb

theorem keys_set {L : List RoutingNode} (i : Fin L.length) (hid : n.id = (L.get i).id)
    (hhost : n.host = (L.get i).host) : (L.set i n).map (fun n => (n.id, n.host)) = L.map fun n => (n.id, n.host) := by
  have hi : i.val < (L.map fun n => (n.id, n.host)).length := by simp
  have hget : ((L.get i).id, (L.get i).host) = (L.map fun n => (n.id, n.host))[i.val] := by simp
  rw [List.map_set, hid, hhost, hget, List.set_getElem_self]

theorem Ok.meetKnown (h : Ok t) (id : Id20) (addr : SocketAddr) (liveness : RoutingLiveness) (now : Nat) :
    Ok (t.meetKnown id addr liveness now).1
      ∧ ((t.meetKnown id addr liveness now).2 = true → ∀ n ∈ (t.meetKnown id addr liveness now).1.nodes, n.id ≠ id) := by
  obtain ⟨idx, hidx⟩ := h.exists_bucketIndex (t.ourId.distance id)
  simp only [RoutingTable.meetKnown, hidx]
  split
  · rename_i hnone
    refine ⟨h, fun _ n hn he => ?_⟩
    have := List.findFinIdx?_eq_none_iff.mp hnone n (h.mem_bucket hidx hn he)
    exact this (decide_eq_true he)
  · rename_i position hpos
    have hposid : ((t.buckets.get idx).nodes.get position).id = id := of_decide_eq_true (List.findFinIdx?_eq_some_iff.mp hpos).1
    split
    · exact ⟨h, fun hf => by cases hf⟩
    split
    · rename_i hhost
      refine ⟨h.congr rfl (alike_set (List.getElem?_eq_getElem idx.isLt) ⟨rfl, rfl, ?_⟩), fun hf => by cases hf⟩
      exact keys_set position rfl hhost.symm
    · split
      · exact ⟨h, fun hf => by cases hf⟩
      · obtain ⟨hok, hperm⟩ := h.without idx (List.getElem?_eq_getElem position.isLt)
        refine ⟨hok, fun _ n hn he => ?_⟩
        have hids := (hperm.map (·.id)).nodup_iff.mp h.ids
        rw [List.map_cons, List.nodup_cons] at hids
        refine hids.1 ?_
        change ((t.buckets.get idx).nodes.get position).id ∈ _
        rw [hposid, ← he]
        exact List.mem_map_of_mem hn

theorem Ok.addWithLiveness (h : Ok t) (id : Id20) (addr : SocketAddr) (liveness : RoutingLiveness)
    (now later : Nat) : ∃ t', t.addWithLiveness id addr liveness now later = some t' ∧ Ok t' := by
  unfold RoutingTable.addWithLiveness
  split
  · exact ⟨t, rfl, h⟩
  · obtain ⟨hok, hid⟩ := h.meetKnown id addr liveness now
    rcases hm : t.meetKnown id addr liveness now with ⟨t₁, go⟩
    rw [hm] at hok hid
    cases go with
    | false => exact ⟨t₁, rfl, hok⟩
    | true =>
      dsimp only
      split
      · exact ⟨t₁, rfl, hok⟩
      · rename_i t₂ hroom
        obtain ⟨hok₂, hapart⟩ := hok.makeRoomForHost (hid rfl) hroom
        obtain ⟨t', ht', hok', -⟩ := @Ok.insertNode _ hok₂
          { id := id, addr := addr, lastSeen := now, liveness := liveness, failures := 0, verified := id.nodeIdValid addr.ip } later hapart
        exact ⟨t', ht', hok'⟩

/-! ## Stale and failing nodes -/

theorem keys_failNodes (nodes : List RoutingNode) {nodes' : List RoutingNode}
    (h : failNodes addr nodes = some nodes') : nodes'.map (fun n => (n.id, n.host)) = nodes.map fun n => (n.id, n.host) := by
  induction nodes generalizing nodes' with
  | nil => cases h
  | cons n rest ih =>
    simp only [failNodes] at h
    split at h
    · obtain ⟨rest', hrest, rfl⟩ := Option.map_eq_some_iff.mp h
      rw [List.map_cons, List.map_cons, ih hrest]
    · cases h
      rfl

theorem alike_failBuckets (addr : SocketAddr) (bs : List RoutingBucket) : List.Forall₂ Alike bs (failBuckets addr bs) := by
  induction bs with
  | nil => exact .nil
  | cons b rest ih =>
    simp only [failBuckets]
    split
    · rename_i nodes hn
      exact .cons ⟨rfl, rfl, keys_failNodes _ hn⟩ (List.forall₂_same.mpr fun b _ => Alike.refl b)
    · exact .cons (Alike.refl b) ih

theorem keys_refreshNodes (now limit : Nat) (nodes : List RoutingNode) (out : List (Id20 × SocketAddr)) :
    (refreshNodes now limit nodes out).1.map (fun n => (n.id, n.host)) = nodes.map fun n => (n.id, n.host) := by
  induction nodes generalizing out with
  | nil => rfl
  | cons n rest ih =>
    have hn : (refreshNode now limit n out).1.id = n.id ∧ (refreshNode now limit n out).1.host = n.host := by
      unfold refreshNode
      repeat' split
      all_goals exact ⟨rfl, rfl⟩
    simp only [refreshNodes, List.map_cons, ih, hn]

theorem alike_refreshBuckets (now limit : Nat) (bs : List RoutingBucket) (out : List (Id20 × SocketAddr)) :
    List.Forall₂ Alike bs (refreshBuckets now limit bs out).1 := by
  induction bs generalizing out with
  | nil => exact .nil
  | cons b rest ih => exact .cons ⟨rfl, rfl, keys_refreshNodes now limit _ _⟩ (ih _)

theorem Ok.staleRefreshTarget (h : Ok t) (now : Nat) (random : Id20) :
    Ok (t.staleRefreshTarget now random).1 := by
  simp only [RoutingTable.staleRefreshTarget]
  split
  · exact h
  rename_i bucket idx harg
  have hmem := List.mem_of_mem_filter (List.argmin_mem harg)
  have hok : Ok { t with buckets := t.buckets.set idx { bucket with lastChanged := now } } :=
    h.congr rfl (alike_set (List.mem_zipIdx_iff_getElem?.mp hmem) ⟨rfl, rfl, rfl⟩)
  split
  · exact hok
  · exact hok

/-- Every call on a table that is in order ends, and leaves it in order. -/
theorem Ok.perform (h : Ok t) (c : Call) : ∃ t', t.perform c = some t' ∧ Ok t' := by
  cases c with
  | add id addr now later => exact h.addWithLiveness id addr .good now later
  | addWithLiveness id addr liveness now later => exact h.addWithLiveness id addr liveness now later
  | recordFailure addr => exact ⟨_, rfl, h.congr rfl (alike_failBuckets addr _)⟩
  | refreshStale now limit => exact ⟨_, rfl, h.congr rfl (alike_refreshBuckets now limit _ _)⟩
  | staleRefreshTarget now random => exact ⟨_, rfl, h.staleRefreshTarget now random⟩
  | setNodeId ourId now later clock => exact h.setNodeId ourId now later clock
  | followExternalAddress elected proxied interval now later random clock =>
    simp only [RoutingTable.perform, followExternalAddress]
    split
    · exact h.setNodeId _ now later clock
    · exact ⟨t, rfl, h⟩
    · exact ⟨t, rfl, h⟩

end RoutingTable

end Risuko
