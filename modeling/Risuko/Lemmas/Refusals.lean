import Risuko.Lemmas.Routing

/-!
# Contacts that are refused

`insert_node` has no place for a contact that is good when its bucket is full of good nodes that stay with it however often the bucket
splits (`RoutingTable.Crowded`). The call can have taken a node of the same host out before that (`RoutingTable.LosesNode`).
-/

namespace Risuko

namespace RoutingTable

variable {t t' : RoutingTable} {fresh : RoutingNode} {id : Id20} {addr : SocketAddr} {now later : Nat}
variable {b : RoutingBucket} {idx : Fin t.buckets.length} {n : RoutingNode}

/-- The node stays in the bucket of `id` at every split: its distance agrees with that of `id` up to the first bit that is set. -/
def StaysWith (t : RoutingTable) (id : Id20) (n : RoutingNode) : Prop :=
  ∀ i < 160, (∀ j < i, (t.ourId.distance id).bit j = false) → (t.ourId.distance n.id).bit i = (t.ourId.distance id).bit i

/-- The bucket of `id` is full of good nodes, and will be after any split. -/
structure CrowdedBucket (t : RoutingTable) (id : Id20) (b : RoutingBucket) : Prop where
  here : b.matches (t.ourId.distance id) = true
  full : b.nodes.length = bucketSize
  good : ∀ n ∈ b.nodes, n.liveness = .good
  stay : b.containsOurs = true → ∀ n ∈ b.nodes, t.StaysWith id n

def Crowded (t : RoutingTable) (id : Id20) : Prop := ∃ b ∈ t.buckets, CrowdedBucket t id b

/-! ## The node to replace -/

theorem oldestQuestionable_some {nodes : List RoutingNode} {only : Bool} {i : Nat} (h : oldestQuestionable nodes only = some i) :
    ∃ n, nodes[i]? = some n ∧ n.liveness = .questionable := by
  obtain ⟨⟨n, j⟩, harg, rfl⟩ := Option.map_eq_some_iff.mp h
  obtain ⟨hmem, hq⟩ := List.mem_filter.mp (List.argmin_mem harg)
  rw [Bool.and_eq_true, decide_eq_true_iff] at hq
  exact ⟨n, List.mem_zipIdx_iff_getElem?.mp hmem, hq.1⟩

theorem oldestQuestionable_none {nodes : List RoutingNode} (h : oldestQuestionable nodes false = none) :
    ∀ n ∈ nodes, n.liveness ≠ .questionable := by
  intro n hn hq
  obtain ⟨i, hi⟩ := List.mem_iff_getElem?.mp hn
  have hnil := List.argmin_eq_none.mp (Option.map_eq_none_iff.mp h)
  have hmem : (n, i) ∈ nodes.zipIdx.filter fun e => e.1.liveness = .questionable && !(false && e.1.verified) :=
    List.mem_filter.mpr ⟨List.mem_zipIdx_iff_getElem?.mpr hi, by simp [hq]⟩
  rw [hnil] at hmem
  exact List.not_mem_nil hmem

/-- A node that is replaced is not good. -/
theorem replaceIdx_some {nodes : List RoutingNode} {i : Nat} (h : replaceIdx nodes fresh = some i) :
    ∃ n, nodes[i]? = some n ∧ n.liveness ≠ .good := by
  have hquestionable : ∀ only, oldestQuestionable nodes only = some i → ∃ n, nodes[i]? = some n ∧ n.liveness ≠ .good := by
    intro only ho
    obtain ⟨n, hn, hq⟩ := oldestQuestionable_some ho
    exact ⟨n, hn, by rw [hq]; decide⟩
  rcases Option.or_eq_some_iff.mp h with h | ⟨-, h⟩
  · rcases Option.or_eq_some_iff.mp h with h | ⟨-, h⟩
    · obtain ⟨hi, hbad, -⟩ := List.findIdx?_eq_some_iff_getElem.mp h
      exact ⟨_, List.getElem?_eq_getElem hi, by rw [of_decide_eq_true hbad]; decide⟩
    · split at h
      · exact hquestionable _ h
      · cases h
  · split at h
    · exact hquestionable _ h
    · cases h

/-- For a good contact every node that is not good can be replaced. -/
theorem replaceIdx_none {nodes : List RoutingNode} (h : replaceIdx nodes fresh = none) (hgood : fresh.liveness = .good) :
    ∀ n ∈ nodes, n.liveness = .good := by
  intro n hn
  obtain ⟨h, hlast⟩ := Option.or_eq_none_iff.mp h
  obtain ⟨hbad, -⟩ := Option.or_eq_none_iff.mp h
  rw [if_pos hgood] at hlast
  have hbad := List.findIdx?_eq_none_iff.mp hbad n hn
  have hquestionable := oldestQuestionable_none hlast n hn
  cases hl : n.liveness with
  | good => rfl
  | questionable => exact absurd hl hquestionable
  | bad => simp [hl] at hbad

/-! ## Splitting -/

/-- The bits before the end of the path of a bucket that our own id is in. -/
theorem bit_of_containsOurs (hours : b.containsOurs = true) {d : Id20} (hm : b.matches d = true) :
    ∀ i < b.prefixLen, d.bit i = false := by
  intro i hi
  rw [RoutingBucket.matches_iff.mp hm i hi]
  simpa using List.all_eq_true.mp hours i (List.mem_range.mpr hi)

/-- Our own id is in a child whose path goes on with a zero. -/
theorem containsOurs_child {c : RoutingBucket} (hours : b.containsOurs = true) (hlen : b.prefixLen < 160)
    (hpath : c.path = (b.child false).path) (hclen : c.prefixLen = b.prefixLen + 1) : c.containsOurs = true := by
  refine List.all_eq_true.mpr fun i hi => ?_
  rw [List.mem_range, hclen] at hi
  simp only [hpath, RoutingBucket.child, Id20.bit_setBit hlen, decide_eq_true_iff]
  split
  · rfl
  · simpa using List.all_eq_true.mp hours i (List.mem_range.mpr (by omega))

/-- A bucket that splits keeps its crowd or loses it, and no crowd comes up. -/
theorem Ok.crowded_splitBucket (h : Ok t) (hm : (t.buckets.get idx).matches (t.ourId.distance id) = true)
    (hours : (t.buckets.get idx).containsOurs = true) (hlen : (t.buckets.get idx).prefixLen < 160) :
    Crowded (t.splitBucket idx) id ↔ Crowded t id := by
  have hb : t.buckets.get idx ∈ t.buckets := List.get_mem _ _
  constructor
  · rintro ⟨c, hc, hcrowd⟩
    have hclen := h.prefixLen_splitBucket hm hlen c hc hcrowd.here
    rcases mem_splitBucket hc with hc | ⟨bit, hpath, -, hnodes⟩
    · rw [h.eq_of_matches hb hc hm hcrowd.here] at hclen
      omega
    · -- All nodes of the bucket are in the child.
      have hbit : (t.ourId.distance id).bit (t.buckets.get idx).prefixLen = bit := by
        have hhere := hcrowd.here
        rw [RoutingBucket.matches_congr hpath hclen, RoutingBucket.matches_child hlen, Bool.and_eq_true, decide_eq_true_iff] at hhere
        exact hhere.2
      have hfull := hcrowd.full
      rw [hnodes] at hfull
      have hall := List.length_filter_eq_length_iff.mp (le_antisymm (List.length_filter_le _ _) (hfull ▸ h.small _ hb))
      rw [List.filter_eq_self.mpr hall] at hnodes hfull
      refine ⟨_, hb, hm, hfull, hnodes ▸ hcrowd.good, fun _ n hn i hi hzero => ?_⟩
      rcases lt_trichotomy i (t.buckets.get idx).prefixLen with hlt | rfl | hgt
      · rw [bit_of_containsOurs hours hm i hlt, bit_of_containsOurs hours (h.placed _ hb n hn) i hlt]
      · rw [hbit]
        exact of_decide_eq_true (hall n hn)
      · rw [hzero _ hgt] at hbit
        subst hbit
        exact hcrowd.stay (containsOurs_child hours hlen hpath hclen) n (hnodes ▸ hn) i hi hzero
  · rintro ⟨b', hb', hcrowd⟩
    obtain rfl := h.eq_of_matches hb hb' hm hcrowd.here
    obtain ⟨c, hc, hpath, hclen, hnodes⟩ := exists_child t idx ((t.ourId.distance id).bit (t.buckets.get idx).prefixLen)
    have hall : ∀ n ∈ (t.buckets.get idx).nodes, decide ((t.ourId.distance n.id).bit (t.buckets.get idx).prefixLen
        = (t.ourId.distance id).bit (t.buckets.get idx).prefixLen) = true := fun n hn =>
      decide_eq_true (hcrowd.stay hours n hn _ hlen (bit_of_containsOurs hours hm))
    rw [List.filter_eq_self.mpr hall] at hnodes
    refine ⟨c, hc, ?_, hnodes ▸ hcrowd.full, hnodes ▸ hcrowd.good, fun _ n hn => hcrowd.stay hours n (hnodes ▸ hn)⟩
    change c.matches (t.ourId.distance id) = true
    rw [RoutingBucket.matches_congr hpath hclen, RoutingBucket.matches_child hlen, hm]
    simp

/-! ## Inserting -/

/-- What becomes of a contact: it is stored and no good node goes, or it is refused and nothing goes. -/
def Settled (t : RoutingTable) (fresh : RoutingNode) (t' : RoutingTable) : Prop :=
  (fresh ∈ t'.nodes ∧ (∀ m ∈ t.nodes, m.liveness = .good → m ∈ t'.nodes) ∧ ¬ Crowded t fresh.id)
    ∨ (t'.nodes.Perm t.nodes ∧ (fresh.liveness = .good → Crowded t fresh.id))

/-- The only bucket that can be crowded is the one of the id. -/
theorem Ok.crowded_iff (h : Ok t) (hb : b ∈ t.buckets) (hm : b.matches (t.ourId.distance id) = true) :
    Crowded t id ↔ CrowdedBucket t id b :=
  ⟨fun ⟨_, hb', hcrowd⟩ => h.eq_of_matches hb hb' hm hcrowd.here ▸ hcrowd, fun hcrowd => ⟨b, hb, hcrowd⟩⟩

theorem mem_nodes_set :
    n ∈ nodes { t with buckets := t.buckets.set idx b }
      ↔ n ∈ b.nodes ∨ n ∈ (t.buckets.take idx).flatMap (·.nodes) ∨ n ∈ (t.buckets.drop (idx + 1)).flatMap (·.nodes) := by
  rw [nodes_of_split (by rw [List.set_eq_take_append_cons_drop, if_pos idx.isLt]), List.mem_append, List.mem_append]
  tauto

theorem mem_nodes_get :
    n ∈ t.nodes ↔ n ∈ (t.buckets.get idx).nodes ∨ n ∈ (t.buckets.take idx).flatMap (·.nodes)
      ∨ n ∈ (t.buckets.drop (idx + 1)).flatMap (·.nodes) := by
  rw [nodes_of_split (buckets_eq t idx), List.mem_append, List.mem_append]
  tauto

theorem Ok.insertLoop_settled (fuel : Nat) (h : Ok t) (hid : fresh.id ≠ t.ourId)
    (ht : RoutingTable.insertLoop fresh now fuel t = some t') : Settled t fresh t' := by
  induction fuel generalizing t with
  | zero => cases ht
  | succ fuel ih =>
    obtain ⟨idx, hidx⟩ := h.exists_bucketIndex (t.ourId.distance fresh.id)
    have hm := matches_bucketIndex hidx
    have hb : t.buckets.get idx ∈ t.buckets := List.get_mem _ _
    simp only [RoutingTable.insertLoop, hidx] at ht
    split at ht
    · rename_i hroom
      cases ht
      refine .inl ⟨mem_nodes_set.mpr (.inl (by simp)), fun m hmem _ => mem_nodes_set.mpr ?_, fun hcrowd => ?_⟩
      · exact (mem_nodes_get.mp hmem).imp_left fun hm => List.mem_append_left _ hm
      · exact absurd ((h.crowded_iff hb hm).mp hcrowd).full hroom.ne
    · rename_i hfull
      split at ht
      · rename_i hsplit
        rw [Bool.and_eq_true, decide_eq_true_iff] at hsplit
        have hnodes := nodes_splitBucket t idx
        have hcrowd := h.crowded_splitBucket hm hsplit.1 hsplit.2
        rcases ih (h.splitBucket idx hsplit.2) hid ht with ⟨hmem, hgood, hnot⟩ | ⟨hperm, hcr⟩
        · exact .inl ⟨hmem, fun m hm => hgood m (hnodes.mem_iff.mpr hm), fun hc => hnot (hcrowd.mpr hc)⟩
        · exact .inr ⟨hperm.trans hnodes, fun hg => hcrowd.mp (hcr hg)⟩
      · rename_i hsplit
        split at ht
        · rename_i i hi
          obtain ⟨n, hn, hnot⟩ := replaceIdx_some hi
          obtain ⟨hlt, rfl⟩ := List.getElem?_eq_some_iff.mp hn
          cases ht
          refine .inl ⟨mem_nodes_set.mpr (.inl (List.mem_set hlt fresh)), fun m hmem hgood => mem_nodes_set.mpr ?_, fun hcrowd => ?_⟩
          · refine (mem_nodes_get.mp hmem).imp_left fun hmb => ?_
            obtain ⟨j, hj, rfl⟩ := List.getElem_of_mem hmb
            have hne : i ≠ j := fun he => hnot (by subst he; exact hgood)
            exact List.mem_iff_getElem.mpr ⟨j, by simpa using hj, by simp [hne]⟩
          · exact hnot (((h.crowded_iff hb hm).mp hcrowd).good _ (List.getElem_mem hlt))
        · rename_i hnone
          rw [← Option.some.inj ht]
          refine .inr ⟨.refl _, fun hgood => ⟨_, hb, hm, le_antisymm (h.small _ hb) (not_lt.mp hfull), replaceIdx_none hnone hgood, ?_⟩⟩
          -- The bucket cannot split any more: it has one distance.
          intro hours n hn i hi _
          have hlen : ¬ (t.buckets.get idx).prefixLen < 160 := fun hlt => hsplit (by rw [hours, Bool.true_and]; exact decide_eq_true hlt)
          rw [RoutingBucket.matches_iff.mp hm i (by omega), RoutingBucket.matches_iff.mp (h.placed _ hb n hn) i (by omega)]

/-! ## What a call costs -/

def Stores (t : RoutingTable) (id : Id20) (addr : SocketAddr) : Prop := ∃ n ∈ t.nodes, n.id = id ∧ n.addr = addr

/-- From `t` to `t'`, a call that refuses the contact leaves the nodes that are not bad, but for a refresh of the one with the same id, and
no call makes a good node go, but for one at the very address under another id. -/
structure CostsNothing (t t' : RoutingTable) (id : Id20) (addr : SocketAddr) : Prop where
  refused : ¬ t'.Stores id addr → ∀ n ∈ t.nodes, n.liveness ≠ .bad → n ∈ t'.nodes ∨ (n.id = id ∧ ∃ n' ∈ t'.nodes, n'.id = id)
  good : ∀ n ∈ t.nodes, n.liveness = .good → (∃ n' ∈ t'.nodes, n'.id = n.id) ∨ (n.addr = addr ∧ n.id ≠ id)

/-- The contact is good and new, its bucket is crowded, and a node of its host that is not bad gives way to it in another bucket. -/
structure LosesNode (t : RoutingTable) (id : Id20) (addr : SocketAddr) (liveness : RoutingLiveness) : Prop where
  good : liveness = .good
  foreign : id ≠ t.ourId
  new : ∀ n ∈ t.nodes, n.id ≠ id
  gives : ∃ b ∈ t.buckets, CrowdedBucket t id b ∧ ∃ n ∈ t.nodes, n ∉ b.nodes ∧ n.host = addr.ip.hostPrefix
    ∧ (n.liveness = .questionable ∨ (n.liveness = .good ∧ n.addr = addr))

/-- Nothing but bad nodes goes. -/
theorem costsNothing_of_kept (h : ∀ n ∈ t.nodes, n.liveness ≠ .bad → n ∈ t'.nodes) : CostsNothing t t' id addr where
  refused _ n hn hbad := .inl (h n hn hbad)
  good n hn hgood := .inl ⟨n, h n hn (by rw [hgood]; decide), rfl⟩

theorem Ok.eq_of_host (h : Ok t) {m : RoutingNode} (hm : m ∈ t.nodes) (hn : n ∈ t.nodes) (he : m.host = n.host) : m = n :=
  List.inj_on_of_nodup_map h.hosts hm hn he

/-- Without one of its nodes a bucket is not crowded, and the others are as they were. -/
theorem Ok.crowded_without (h : Ok t) (idx : Fin t.buckets.length) {j : Nat}
    (hn : (t.buckets.get idx).nodes[j]? = some n) :
    Crowded (t.without idx j) id ↔ ∃ b ∈ t.buckets, CrowdedBucket t id b ∧ n ∉ b.nodes := by
  have hlt : j < (t.buckets.get idx).nodes.length := (List.getElem?_eq_some_iff.mp hn).1
  have hb : t.buckets.get idx ∈ t.buckets := List.get_mem _ _
  have hnb := List.mem_of_getElem? hn
  constructor
  · rintro ⟨b, hmem', hcrowd⟩
    rcases List.mem_or_eq_of_mem_set hmem' with hmem | rfl
    · refine ⟨b, hmem, ⟨hcrowd.here, hcrowd.full, hcrowd.good, hcrowd.stay⟩, fun hn' => ?_⟩
      obtain rfl := h.eq_of_matches hmem hb (h.placed b hmem n hn') (h.placed _ hb n hnb)
      -- The bucket of the node is there once, and shorter now.
      have hshort := (h.without idx hn).1.eq_of_matches (List.mem_set idx.isLt _) hmem' (by exact h.placed _ hb n hnb)
        (h.placed _ hb n hnb)
      have hlen := congrArg (fun b : RoutingBucket => b.nodes.length) hshort
      simp only [List.length_eraseIdx, if_pos hlt] at hlen
      omega
    · have hfull := hcrowd.full
      have hsmall := h.small _ hb
      simp only [List.length_eraseIdx, if_pos hlt] at hfull
      omega
  · rintro ⟨b, hmem, hcrowd, hn'⟩
    obtain ⟨k, hk, rfl⟩ := List.getElem_of_mem hmem
    have hne : idx.val ≠ k := fun he => hn' (by subst he; exact hnb)
    refine ⟨t.buckets[k], List.mem_iff_getElem.mpr ⟨k, by simpa [RoutingTable.without] using hk, by simp [RoutingTable.without, hne]⟩, ?_⟩
    exact ⟨hcrowd.here, hcrowd.full, hcrowd.good, hcrowd.stay⟩

/-- The second part of `add_with_liveness`, for an id that is not stored. -/
theorem Ok.costs_new (h : Ok t) {liveness : RoutingLiveness} (hforeign : id ≠ t.ourId) (hnew : ∀ n ∈ t.nodes, n.id ≠ id)
    (hid : fresh.id = id) (haddr : fresh.addr = addr) (hlive : fresh.liveness = liveness)
    (ht : ((t.makeRoomForHost id addr liveness).elim (some t) fun t => t.insertNode fresh later) = some t') :
    CostsNothing t t' id addr ↔ ¬ LosesNode t id addr liveness := by
  cases hroom : t.makeRoomForHost id addr liveness with
  | none =>
    rw [hroom] at ht
    cases ht
    refine iff_of_true (costsNothing_of_kept fun n hn _ => hn) fun hl => ?_
    -- The node that would give way is the one that does not.
    obtain ⟨p, hp, hconf, hkeeps⟩ := findConflict_none _ (Option.map_eq_none_iff.mp hroom)
    obtain ⟨-, -, -, n, hn, -, hhost, hgives⟩ := hl.gives
    obtain rfl := h.eq_of_host hn (mem_nodes_of_mem_places hp) (hhost.trans (conflicts_iff.mp hconf).2.symm)
    exact hkeeps (.inr ⟨hl.good, hgives.imp_right And.right⟩)
  | some t₂ =>
    rw [hroom] at ht
    change t₂.insertNode fresh later = some t' at ht
    have hok₂ := (h.makeRoomForHost hnew hroom).1
    have hour : t₂.ourId = t.ourId := by
      rcases makeRoomForHost_some hnew hroom with ⟨rfl, -⟩ | ⟨idx, j, n, -, -, -, rfl⟩ <;> rfl
    have hsettled : Settled t₂ fresh t' := by
      unfold RoutingTable.insertNode at ht
      rw [if_neg (by rw [Id20.distance_eq_zero_iff, hid, hour]; exact hforeign.symm)] at ht
      exact hok₂.insertLoop_settled _ (by rw [hid, hour]; exact hforeign) ht
    have hstores : fresh ∈ t'.nodes → t'.Stores id addr := fun hmem => ⟨fresh, hmem, hid, haddr⟩
    rcases makeRoomForHost_some hnew hroom with ⟨rfl, hno⟩ | ⟨idx, j, n, hn, hhost, hgives, rfl⟩
    · refine iff_of_true ?_ fun hl => ?_
      · rcases hsettled with ⟨hmem, hgood, -⟩ | ⟨hperm, -⟩
        · exact ⟨fun hnot => absurd (hstores hmem) hnot, fun m hm hg => .inl ⟨m, hgood m hm hg, rfl⟩⟩
        · exact costsNothing_of_kept fun m hm _ => hperm.mem_iff.mpr hm
      · obtain ⟨-, -, -, n, hn, -, hhost, -⟩ := hl.gives
        exact hno n hn hhost
    · have hperm := (h.without idx hn).2
      have hnt : n ∈ t.nodes := hperm.mem_iff.mpr List.mem_cons_self
      have hcrowd : Crowded (t.without idx j) id ↔ ∃ b ∈ t.buckets, CrowdedBucket t id b ∧ n ∉ b.nodes := h.crowded_without idx hn
      have hother : ∀ m ∈ t.nodes, m = n ∨ m ∈ (t.without idx j).nodes := fun m hm => List.mem_cons.mp (hperm.mem_iff.mp hm)
      -- The node of the condition is the one that was taken out.
      have hloses : LosesNode t id addr liveness ↔ liveness = .good ∧ Crowded (t.without idx j) id ∧ n.liveness ≠ .bad := by
        constructor
        · intro hl
          obtain ⟨b, hb, hfull, m, hm, hmb, hmhost, hlive⟩ := hl.gives
          obtain rfl := h.eq_of_host hm hnt (hmhost.trans hhost.symm)
          refine ⟨hl.good, hcrowd.mpr ⟨b, hb, hfull, hmb⟩, ?_⟩
          rcases hlive with hlive | ⟨hlive, -⟩ <;> rw [hlive] <;> decide
        · rintro ⟨hg, hc, hbad⟩
          obtain ⟨b, hb, hfull, hnb⟩ := hcrowd.mp hc
          refine ⟨hg, hforeign, hnew, b, hb, hfull, n, hnt, hnb, hhost, ?_⟩
          cases hl : n.liveness with
          | questionable => exact .inl rfl
          | bad => exact absurd hl hbad
          | good =>
            rcases hgives with hb | ⟨-, hq | ha⟩
            · exact absurd hb hbad
            · rw [hl] at hq
              cases hq
            · exact .inr ⟨rfl, ha⟩
      rw [hloses]
      rcases hsettled with ⟨hmem, hgood, hnot⟩ | ⟨hperm', hrefused⟩
      · refine iff_of_true ⟨fun hno => absurd (hstores hmem) hno, fun m hm hg => ?_⟩ fun ⟨_, hc, _⟩ => hnot (hid ▸ hc)
        rcases hother m hm with rfl | hm'
        · rcases hgives with hb | ⟨-, hq | ha⟩
          · rw [hg] at hb
            cases hb
          · rw [hg] at hq
            cases hq
          · exact .inr ⟨ha, hnew m hm⟩
        · exact .inl ⟨m, hgood m hm' hg, rfl⟩
      · by_cases hbad : n.liveness = .bad
        · refine iff_of_true (costsNothing_of_kept fun m hm hm' => hperm'.mem_iff.mpr ?_) fun ⟨_, _, hn⟩ => hn hbad
          exact (hother m hm).resolve_left fun he => hm' (he ▸ hbad)
        · have hgood : liveness = .good := (hgives.resolve_left hbad).1
          refine iff_of_false (fun hcost => ?_) (not_not.mpr ⟨hgood, hid ▸ hrefused (hlive.trans hgood), hbad⟩)
          have hno : ∀ m ∈ t'.nodes, m.id ≠ id := fun m hm =>
            hnew m (hperm.mem_iff.mpr (List.mem_cons_of_mem _ (hperm'.mem_iff.mp hm)))
          rcases hcost.refused (fun ⟨m, hm, he, _⟩ => hno m hm he) n hnt hbad with hn' | ⟨he, -⟩
          · have hids := (hperm.map (·.id)).nodup_iff.mp h.ids
            rw [List.map_cons, List.nodup_cons] at hids
            exact hids.1 (List.mem_map_of_mem (hperm'.mem_iff.mp hn'))
          · exact hnew n hnt he

/-- A call costs something exactly when a node gives way to a contact that has no place. -/
theorem Ok.costs_addWithLiveness (h : Ok t) {liveness : RoutingLiveness}
    (ht : t.addWithLiveness id addr liveness now later = some t') : CostsNothing t t' id addr ↔ ¬ LosesNode t id addr liveness := by
  have hknown : ∀ n ∈ t.nodes, n.id = id → ¬ LosesNode t id addr liveness := fun n hn he hl => hl.new n hn he
  unfold RoutingTable.addWithLiveness at ht
  split at ht
  · rename_i hzero
    cases ht
    exact iff_of_true (costsNothing_of_kept fun n hn _ => hn) fun hl => hl.foreign (Id20.distance_eq_zero_iff.mp hzero).symm
  · rename_i hzero
    have hforeign : id ≠ t.ourId := fun he => hzero (Id20.distance_eq_zero_iff.mpr he.symm)
    -- What follows for a table in which the id is not stored.
    have hgo : ∀ t₁ : RoutingTable, Ok t₁ → t₁.ourId = t.ourId → (∀ n ∈ t₁.nodes, n.id ≠ id) →
        ((t₁.makeRoomForHost id addr liveness).elim (some t₁) fun t =>
          t.insertNode ⟨id, addr, now, liveness, 0, id.nodeIdValid addr.ip⟩ later) = some t' →
        (CostsNothing t₁ t' id addr ↔ ¬ LosesNode t₁ id addr liveness) := by
      intro t₁ hok hour hnew ht₁
      exact @Ok.costs_new t₁ t' ⟨id, addr, now, liveness, 0, id.nodeIdValid addr.ip⟩ id addr later hok liveness (hour ▸ hforeign) hnew
        rfl rfl rfl ht₁
    obtain ⟨idx, hidx⟩ := h.exists_bucketIndex (t.ourId.distance id)
    have hnew := (h.meetKnown id addr liveness now).2
    simp only [RoutingTable.meetKnown, hidx] at ht hnew
    cases hpos : (t.buckets.get idx).nodes.findFinIdx? fun n => n.id = id with
    | none =>
      simp only [hpos] at ht hnew
      exact hgo t h rfl (hnew trivial) (by rw [← ht]; cases t.makeRoomForHost id addr liveness <;> rfl)
    | some position =>
      simp only [hpos] at ht hnew
      have hposid : ((t.buckets.get idx).nodes.get position).id = id := of_decide_eq_true (List.findFinIdx?_eq_some_iff.mp hpos).1
      have hmem : (t.buckets.get idx).nodes.get position ∈ t.nodes := mem_nodes.mpr ⟨_, List.get_mem _ _, List.get_mem _ _⟩
      have hself : some t = some t' → (CostsNothing t t' id addr ↔ ¬ LosesNode t id addr liveness) := by
        rintro ⟨⟩
        exact iff_of_true (costsNothing_of_kept fun n hn _ => hn) (hknown _ hmem hposid)
      by_cases hgood : liveness ≠ .good
      · rw [if_pos hgood] at ht
        exact hself ht
      by_cases hhost : ((t.buckets.get idx).nodes.get position).addr.ip.hostPrefix = addr.ip.hostPrefix
      · -- The node is refreshed.
        rw [if_neg hgood, if_pos hhost] at ht
        cases ht
        have hfresh : ∀ (b : RoutingBucket) (n : RoutingNode), n.id = id → n.addr = addr →
            b.nodes = (t.buckets.get idx).nodes.set position n → Stores { t with buckets := t.buckets.set idx b } id addr :=
          fun b n hid haddr hb => ⟨n, mem_nodes_set.mpr (.inl (hb ▸ List.mem_set position.isLt n)), hid, haddr⟩
        have hstores := hfresh { t.buckets.get idx with nodes := _, lastChanged := now }
          { (t.buckets.get idx).nodes.get position with addr := addr, lastSeen := now, liveness := .good, failures := 0 } hposid rfl rfl
        refine iff_of_true ⟨fun hno => absurd hstores hno, fun n hn _ => .inl ?_⟩ (hknown _ hmem hposid)
        by_cases hne : n.id = id
        · obtain ⟨n', hn', hid, -⟩ := hstores
          exact ⟨n', hn', hid.trans hne.symm⟩
        · refine ⟨n, mem_nodes_set.mpr ((mem_nodes_get.mp hn).imp_left fun hnb => ?_), rfl⟩
          obtain ⟨k, hk, rfl⟩ := List.getElem_of_mem hnb
          have hnek : position.val ≠ k := fun he => hne (by subst he; exact hposid)
          exact List.mem_iff_getElem.mpr ⟨k, by simpa using hk, by simp [hnek]⟩
      by_cases hbad : ((t.buckets.get idx).nodes.get position).liveness ≠ .bad
      · rw [if_neg hgood, if_neg hhost, if_pos hbad] at ht
        exact hself ht
      · -- A bad node under the id is taken out, so that its bucket has room.
        rw [if_neg hgood, if_neg hhost, if_neg hbad] at ht hnew
        have hget := List.getElem?_eq_getElem position.isLt
        obtain ⟨hok, hperm⟩ := h.without idx hget
        have hcost := (hgo _ hok rfl (hnew rfl) (by
          rw [← ht]
          unfold RoutingTable.without
          dsimp only
          cases RoutingTable.makeRoomForHost _ id addr liveness <;> rfl)).mpr fun hl => by
          obtain ⟨b, hb, hfull, -⟩ := hl.gives
          obtain ⟨b', hb', hfull', hnot⟩ := (h.crowded_without idx hget).mp ⟨b, hb, hfull⟩
          rw [h.eq_of_matches (List.get_mem _ _) hb' (matches_bucketIndex hidx) hfull'.here] at hnot
          exact hnot (List.get_mem _ _)
        have hkept : ∀ n ∈ t.nodes, n.liveness ≠ .bad → n ∈ (t.without idx position).nodes := fun n hn hlive =>
          (List.mem_cons.mp (hperm.mem_iff.mp hn)).resolve_left fun he => hlive (by rw [he]; exact not_not.mp hbad)
        refine iff_of_true ⟨fun hno n hn hlive => hcost.refused hno n (hkept n hn hlive) hlive, fun n hn hlive => ?_⟩ (hknown _ hmem hposid)
        exact hcost.good n (hkept n hn (by rw [hlive]; decide)) hlive

end RoutingTable

end Risuko
