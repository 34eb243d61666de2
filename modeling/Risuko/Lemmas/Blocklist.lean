import Risuko.Torrent.Blocklist

/-!
# What the ranges of a block list hold

The addresses that agree with a network under its mask are the range from the network on, so the merged ranges hold what the rules cover one by one.
The queue of bans is the last of them.
-/

namespace Risuko

namespace Blocklist

/-! ## Masks -/

/-- A mask leaves the highest bits. -/
theorem mask_eq {w : ℕ} (p : ℕ) : ∃ k ≤ w, mask w p = 2 ^ w - 2 ^ k := by
  unfold mask
  split
  · exact ⟨w, le_rfl, (Nat.sub_self _).symm⟩
  · rename_i hp
    refine ⟨w - min p w, Nat.sub_le _ _, ?_⟩
    generalize hk : w - min p w = k
    have hle : k ≤ w := by
      omega
    have hpow : 2 ^ k ≤ 2 ^ w := Nat.pow_le_pow_right (by decide) hle
    have hpos : 1 ≤ 2 ^ k := Nat.one_le_two_pow
    have hsplit : (2 ^ w - 1) * 2 ^ k = 2 ^ w - 2 ^ k + 2 ^ w * (2 ^ k - 1) := by
      zify [hpow, hpos, hpos.trans hpow]
      ring
    rw [Nat.shiftLeft_eq, hsplit, Nat.add_mul_mod_self_left]
    exact Nat.mod_eq_of_lt (by omega)

theorem land_mask {w k : ℕ} (hk : k ≤ w) (a : ℕ) : a &&& (2 ^ w - 2 ^ k) = a % 2 ^ w / 2 ^ k * 2 ^ k := by
  have hmask : 2 ^ w - 2 ^ k = (2 ^ (w - k) - 1) <<< k := by
    rw [Nat.shiftLeft_eq, Nat.sub_mul, one_mul, ← pow_add, Nat.sub_add_cancel hk]
  rw [hmask, ← Nat.shiftRight_eq_div_pow, ← Nat.shiftLeft_eq]
  refine Nat.eq_of_testBit_eq fun i => ?_
  rw [Nat.testBit_and, Nat.testBit_shiftLeft, Nat.testBit_shiftLeft, Nat.testBit_two_pow_sub_one, Nat.testBit_shiftRight, Nat.testBit_mod_two_pow]
  by_cases hi : k ≤ i
  · have hsame : k + (i - k) = i := by
      omega
    have hlt : i - k < w - k ↔ i < w := by
      omega
    rw [hsame, decide_eq_true hi, Bool.true_and, Bool.true_and, decide_eq_decide.mpr hlt, Bool.and_comm]
  · rw [decide_eq_false hi, Bool.false_and, Bool.false_and, Bool.and_false]

/-- The range of a network holds the addresses that agree with it under its mask. -/
theorem mem_range_iff {w : ℕ} (a p x : ℕ) :
    ((a &&& mask w p) ≤ x ∧ x ≤ (a &&& mask w p) ||| (2 ^ w - 1 - mask w p)) ↔ x < 2 ^ w ∧ x &&& mask w p = a &&& mask w p := by
  obtain ⟨k, hk, hmask⟩ := mask_eq (w := w) p
  have hpow : 2 ^ k ≤ 2 ^ w := Nat.pow_le_pow_right (by decide) hk
  have hpos : 0 < 2 ^ k := Nat.two_pow_pos k
  have hrest : 2 ^ w - 1 - (2 ^ w - 2 ^ k) = 2 ^ k - 1 := by
    omega
  rw [hmask, hrest, land_mask hk, land_mask hk]
  generalize hq : a % 2 ^ w / 2 ^ k = q
  have hend : q * 2 ^ k ||| (2 ^ k - 1) = q * 2 ^ k + (2 ^ k - 1) := by
    rw [← Nat.shiftLeft_eq, ← Nat.shiftLeft_add_eq_or_of_lt (Nat.sub_lt hpos Nat.one_pos)]
  have hfits : q * 2 ^ k + 2 ^ k ≤ 2 ^ w := by
    have hlt : q < 2 ^ (w - k) := by
      rw [← hq, Nat.div_lt_iff_lt_mul hpos, ← pow_add, Nat.sub_add_cancel hk]
      exact Nat.mod_lt _ (Nat.two_pow_pos w)
    have hmul := Nat.mul_le_mul_right (2 ^ k) hlt
    rwa [← pow_add, Nat.sub_add_cancel hk, Nat.succ_mul] at hmul
  rw [hend]
  constructor
  · rintro ⟨hlo, hhi⟩
    have hx : x < 2 ^ w := by
      omega
    refine ⟨hx, ?_⟩
    rw [Nat.mod_eq_of_lt hx, Nat.div_eq_of_lt_le (k := q) hlo (by rw [Nat.succ_mul]; omega)]
  · rintro ⟨hx, heq⟩
    rw [Nat.mod_eq_of_lt hx] at heq
    have hdiv := Nat.div_add_mod x (2 ^ k)
    have hmod := Nat.mod_lt x hpos
    rw [Nat.mul_comm, heq] at hdiv
    omega

/-! ## Rules -/

/-- A rule that was read is a network and its mask. -/
theorem parseEntry_cidr {entry : List Char} {rule : Prefix} (h : parseEntry entry = some (.cidr rule)) :
    (∃ a p, rule = .v4 (a &&& mask 32 p) (mask 32 p)) ∨ ∃ a p, rule = .v6 (a &&& mask 128 p) (mask 128 p) := by
  unfold parseEntry at h
  dsimp only at h
  split at h
  · cases h
  split at h
  · split at h
    · cases h
    split at h
    · cases h
    rename_i p _ _ ip _
    rw [Option.map_eq_some_iff] at h
    obtain ⟨rule', hrule, heq⟩ := h
    cases heq
    unfold parsePrefix at hrule
    split at hrule
    · split at hrule
      · cases hrule
      · cases hrule
        exact Or.inl ⟨_, p, rfl⟩
    · split at hrule
      · cases hrule
      · cases hrule
        exact Or.inr ⟨_, p, rfl⟩
  · rw [Option.map_eq_some_iff] at h
    obtain ⟨ip, -, heq⟩ := h
    cases heq

namespace PreparedRules

variable {entries : List (List Char)}

theorem mem_exact {ip : IpAddr} : ip ∈ (parse entries).exact ↔ ∃ entry ∈ entries, ∃ rule, parseEntry entry = some (.exact rule) ∧
    rule.toCanonical = ip := by
  simp only [parse, List.mem_filterMap]
  refine exists_congr fun entry => and_congr_right fun _ => ?_
  split
  · rename_i rule hrule
    rw [hrule, Option.some_inj]
    constructor
    · intro heq
      exact ⟨rule, rfl, heq⟩
    · rintro ⟨other, hother, heq⟩
      cases hother
      exact heq
  · rename_i hnone
    refine iff_of_false nofun ?_
    rintro ⟨rule, hrule, -⟩
    exact hnone rule hrule

theorem mem_prefixes {rule : Prefix} : rule ∈ (parse entries).prefixes ↔ ∃ entry ∈ entries, parseEntry entry = some (.cidr rule) := by
  simp only [parse, List.mem_filterMap]
  refine exists_congr fun entry => and_congr_right fun _ => ?_
  split
  · rename_i other hother
    rw [hother, Option.some_inj, Option.some_inj]
    exact ⟨fun heq => by rw [heq], fun heq => ParsedEntry.cidr.inj heq⟩
  · rename_i hnone
    exact iff_of_false nofun fun hrule => hnone rule hrule

/-- The merged ranges of some rules hold what the ranges of these rules hold. -/
theorem rangeContains_prefixes {f : Prefix → Option (ℕ × ℕ)} (hf : ∀ rule r, f rule = some r → r.1 ≤ r.2) (x : ℕ) :
    rangeContains (mergeRanges ((parse entries).prefixes.filterMap f)) x = true ↔
      ∃ entry ∈ entries, ∃ rule, parseEntry entry = some (.cidr rule) ∧ ∃ r, f rule = some r ∧ r.1 ≤ x ∧ x ≤ r.2 := by
  have hne : ∀ r ∈ (parse entries).prefixes.filterMap f, r.1 ≤ r.2 := by
    intro r hr
    obtain ⟨rule, -, heq⟩ := List.mem_filterMap.mp hr
    exact hf rule r heq
  obtain ⟨hordered, hcovers⟩ := Intervals.covers_merge hne
  refine ((Intervals.lookup_iff hordered x).trans (hcovers x)).trans ?_
  constructor
  · rintro ⟨r, hr, hin⟩
    obtain ⟨rule, hrule, heq⟩ := List.mem_filterMap.mp hr
    obtain ⟨entry, hentry, hparse⟩ := mem_prefixes.mp hrule
    exact ⟨entry, hentry, rule, hparse, r, heq, hin⟩
  · rintro ⟨entry, hentry, rule, hparse, r, heq, hin⟩
    exact ⟨r, List.mem_filterMap.mpr ⟨rule, mem_prefixes.mpr ⟨entry, hentry, hparse⟩, heq⟩, hin⟩

/-- The range of a rule of IPv4. -/
def v4Range : Prefix → Option (ℕ × ℕ)
  | .v4 network m => some (network, network ||| (2 ^ 32 - 1 - m))
  | .v6 .. => none

/-- The range of a rule of IPv6. -/
def v6Range : Prefix → Option (ℕ × ℕ)
  | .v4 .. => none
  | .v6 network m => some (network, network ||| (2 ^ 128 - 1 - m))

/-- The ranges of IPv4 hold what the rules of IPv4 cover. -/
theorem v4Ranges_contains (x : ℕ) : rangeContains (parse entries).v4Ranges x = true ↔
    ∃ entry ∈ entries, ∃ network m, parseEntry entry = some (.cidr (.v4 network m)) ∧ x < 2 ^ 32 ∧ x &&& m = network := by
  have hne : ∀ rule r, v4Range rule = some r → r.1 ≤ r.2 := by
    rintro (⟨network, m⟩ | ⟨network, m⟩) r heq
    · cases heq
      exact Nat.left_le_or
    · cases heq
  refine (rangeContains_prefixes hne x).trans (exists_congr fun entry => and_congr_right fun _ => ?_)
  constructor
  · rintro ⟨rule, hparse, r, heq, hin⟩
    rcases parseEntry_cidr hparse with ⟨a, p, rfl⟩ | ⟨a, p, rfl⟩
    · cases heq
      exact ⟨_, _, hparse, (mem_range_iff a p x).mp hin⟩
    · cases heq
  · rintro ⟨network, m, hparse, hx⟩
    refine ⟨_, hparse, _, rfl, ?_⟩
    rcases parseEntry_cidr hparse with ⟨a, p, heq⟩ | ⟨a, p, heq⟩
    · cases heq
      exact (mem_range_iff a p x).mpr hx
    · cases heq

/-- The ranges of IPv6 hold what the rules of IPv6 cover. -/
theorem v6Ranges_contains (x : ℕ) : rangeContains (parse entries).v6Ranges x = true ↔
    ∃ entry ∈ entries, ∃ network m, parseEntry entry = some (.cidr (.v6 network m)) ∧ x < 2 ^ 128 ∧ x &&& m = network := by
  have hne : ∀ rule r, v6Range rule = some r → r.1 ≤ r.2 := by
    rintro (⟨network, m⟩ | ⟨network, m⟩) r heq
    · cases heq
    · cases heq
      exact Nat.left_le_or
  refine (rangeContains_prefixes hne x).trans (exists_congr fun entry => and_congr_right fun _ => ?_)
  constructor
  · rintro ⟨rule, hparse, r, heq, hin⟩
    rcases parseEntry_cidr hparse with ⟨a, p, rfl⟩ | ⟨a, p, rfl⟩
    · cases heq
    · cases heq
      exact ⟨_, _, hparse, (mem_range_iff a p x).mp hin⟩
  · rintro ⟨network, m, hparse, hx⟩
    refine ⟨_, hparse, _, rfl, ?_⟩
    rcases parseEntry_cidr hparse with ⟨a, p, heq⟩ | ⟨a, p, heq⟩
    · cases heq
    · cases heq
      exact (mem_range_iff a p x).mpr hx

end PreparedRules

namespace BlockList

/-! ## The list over a run -/

/-- What a list holds after calls: the rules of the last replacement and the last bans. -/
structure Holds (list : BlockList) (calls : List Call) : Prop where
  exact : list.exact = (PreparedRules.parse (currentRules calls)).exact
  prefixes : list.prefixes = (PreparedRules.parse (currentRules calls)).prefixes
  v4Ranges : list.v4Ranges = (PreparedRules.parse (currentRules calls)).v4Ranges
  v6Ranges : list.v6Ranges = (PreparedRules.parse (currentRules calls)).v6Ranges
  banOrder : list.banOrder = recentBans calls
  banned : list.banned.Perm list.banOrder
  nodup : list.banOrder.Nodup
  few : list.banOrder.length ≤ maxBanned

theorem holds_empty : Holds .empty [] := ⟨rfl, rfl, rfl, rfl, rfl, .refl _, List.nodup_nil, Nat.zero_le _⟩

theorem currentRules_concat (calls : List Call) (c : Call) :
    currentRules (calls ++ [c]) = match c with | .replace entries => entries | .ban _ => currentRules calls := by
  unfold currentRules
  refine (List.foldl_append ..).trans ?_
  cases c <;> rfl

theorem recentBans_concat (calls : List Call) (ip : IpAddr) : recentBans (calls ++ [.ban ip]) =
    if ip.toCanonical ∈ recentBans calls then recentBans calls
    else (recentBans calls ++ [ip.toCanonical]).drop ((recentBans calls ++ [ip.toCanonical]).length - maxBanned) := by
  unfold recentBans
  rw [List.foldl_append, List.foldl_cons, List.foldl_nil]

theorem Holds.replace {list : BlockList} {calls : List Call} (h : Holds list calls) (entries : List (List Char)) :
    Holds (list.replace entries) (calls ++ [.replace entries]) := by
  have hrules : currentRules (calls ++ [.replace entries]) = entries := currentRules_concat ..
  have hbans : recentBans (calls ++ [.replace entries]) = recentBans calls := by
    unfold recentBans
    rw [List.foldl_append, List.foldl_cons, List.foldl_nil]
  constructor
  · rw [hrules]
    rfl
  · rw [hrules]
    rfl
  · rw [hrules]
    rfl
  · rw [hrules]
    rfl
  · rw [hbans]
    exact h.banOrder
  · exact h.banned
  · exact h.nodup
  · exact h.few

theorem Holds.ban {list : BlockList} {calls : List Call} (h : Holds list calls) (ip : IpAddr) : Holds (list.ban ip).1 (calls ++ [.ban ip]) := by
  have hrules : currentRules (calls ++ [.ban ip]) = currentRules calls := currentRules_concat ..
  obtain ⟨hexact, hprefixes, hv4, hv6, horder, hbanned, hnodup, hfew⟩ := h
  rw [← hrules] at hexact hprefixes hv4 hv6
  have hmem : list.banned.contains ip.toCanonical = true ↔ ip.toCanonical ∈ list.banOrder := by
    rw [List.contains_iff_mem]
    exact hbanned.mem_iff
  have hconcat := recentBans_concat calls ip
  rw [← horder] at hconcat
  unfold BlockList.ban
  dsimp only
  by_cases hin : ip.toCanonical ∈ list.banOrder
  · rw [if_pos hin] at hconcat
    rw [if_pos (hmem.mpr hin)]
    exact ⟨hexact, hprefixes, hv4, hv6, hconcat.symm, hbanned, hnodup, hfew⟩
  · rw [if_neg hin] at hconcat
    rw [if_neg (fun h => hin (hmem.mp h))]
    have hnodup' : (list.banOrder ++ [ip.toCanonical]).Nodup := List.nodup_append.mpr ⟨hnodup, List.nodup_singleton _, fun a ha b hb heq => by
      rw [List.mem_singleton.mp hb] at heq
      exact hin (heq ▸ ha)⟩
    have hperm : (ip.toCanonical :: list.banned).Perm (list.banOrder ++ [ip.toCanonical]) :=
      ((hbanned.cons _).trans (List.perm_append_singleton _ _).symm)
    have hlength : (ip.toCanonical :: list.banned).length = list.banOrder.length + 1 := by
      rw [List.length_cons, hbanned.length_eq]
    split
    · rename_i hmany
      rw [hlength] at hmany
      split
      · rename_i hnil
        exact absurd hnil (List.append_ne_nil_of_right_ne_nil _ (List.cons_ne_nil _ _))
      · rename_i oldest rest hsplit
        have hone : (list.banOrder ++ [ip.toCanonical]).length - maxBanned = 1 := by
          rw [List.length_append, List.length_singleton]
          omega
        rw [hone, hsplit, List.drop_one, List.tail_cons] at hconcat
        rw [hsplit] at hperm hnodup'
        have hrest : rest.length ≤ maxBanned := by
          have hall := congrArg List.length hsplit
          rw [List.length_append, List.length_singleton, List.length_cons] at hall
          omega
        have herased := hperm.erase oldest
        rw [List.erase_cons_head] at herased
        exact ⟨hexact, hprefixes, hv4, hv6, hconcat.symm, herased, (List.nodup_cons.mp hnodup').2, hrest⟩
    · rename_i hroom
      rw [hlength] at hroom
      have hall : (list.banOrder ++ [ip.toCanonical]).length ≤ maxBanned := by
        rw [List.length_append, List.length_singleton]
        omega
      rw [Nat.sub_eq_zero_of_le hall, List.drop_zero] at hconcat
      exact ⟨hexact, hprefixes, hv4, hv6, hconcat.symm, hperm, hnodup', hall⟩

theorem holds_run (calls : List Call) : Holds (run calls) calls := by
  induction calls using List.reverseRecOn with
  | nil => exact holds_empty
  | append_singleton calls c ih =>
    have hrun : run (calls ++ [c]) = (run calls).call c := by
      unfold run
      rw [List.foldl_append, List.foldl_cons, List.foldl_nil]
    rw [hrun]
    cases c with
    | replace entries => exact ih.replace entries
    | ban ip => exact ih.ban ip

end BlockList

/-! ## Blocked addresses -/

theorem lt_of_mem_ipv4Form {ip : IpAddr} {x : ℕ} (h : x ∈ ipv4Form ip) : x < 2 ^ 32 := by
  cases ip with
  | v4 addr =>
    cases h
    exact addr.toNat_lt
  | v6 addr =>
    rw [Option.mem_def, ipv4Form, BlockList.toIpv4Mapped] at h
    split at h
    · rw [← Option.some.inj h]
      exact Nat.mod_lt _ (Nat.two_pow_pos 32)
    · cases h

/-- What the rules block is an exact address, in a range of IPv4 in its IPv4 form, or in a range of IPv6 as it is. -/
theorem covers_iff {entries : List (List Char)} {ip : IpAddr} :
    (∃ entry ∈ entries, ∃ rule, parseEntry entry = some rule ∧ rule.Covers ip) ↔
      ip.toCanonical ∈ (PreparedRules.parse entries).exact ∨
      (∃ x ∈ ipv4Form ip, rangeContains (PreparedRules.parse entries).v4Ranges x = true) ∨
      ∃ x, ip = .v6 x ∧ rangeContains (PreparedRules.parse entries).v6Ranges x = true := by
  rw [PreparedRules.mem_exact]
  simp only [PreparedRules.v4Ranges_contains, PreparedRules.v6Ranges_contains]
  constructor
  · rintro ⟨entry, hentry, rule, hparse, hcovers⟩
    match rule, hcovers with
    | .exact rule, heq => exact Or.inl ⟨entry, hentry, rule, hparse, heq⟩
    | .cidr (.v4 network m), ⟨x, hx, heq⟩ =>
      exact Or.inr (Or.inl ⟨x, hx, entry, hentry, network, m, hparse, lt_of_mem_ipv4Form hx, heq⟩)
    | .cidr (.v6 network m), hcovers =>
      cases ip with
      | v4 addr => exact hcovers.elim
      | v6 addr => exact Or.inr (Or.inr ⟨addr, rfl, entry, hentry, network, m, hparse, hcovers⟩)
  · rintro (⟨entry, hentry, rule, hparse, heq⟩ | ⟨x, hx, entry, hentry, network, m, hparse, -, heq⟩ | ⟨x, rfl, entry, hentry, network, m, hparse, hx⟩)
    · exact ⟨entry, hentry, _, hparse, heq⟩
    · exact ⟨entry, hentry, _, hparse, x, hx, heq⟩
    · exact ⟨entry, hentry, _, hparse, hx⟩

/-- A list without rules and bans has no ranges either. -/
theorem not_rangeContains_of_prefixes {entries : List (List Char)} (h : (PreparedRules.parse entries).prefixes = []) (x : ℕ) :
    ¬ rangeContains (PreparedRules.parse entries).v4Ranges x = true ∧ ¬ rangeContains (PreparedRules.parse entries).v6Ranges x = true := by
  rw [PreparedRules.v4Ranges_contains, PreparedRules.v6Ranges_contains]
  constructor
  · rintro ⟨entry, hentry, network, m, hparse, -⟩
    have hmem := PreparedRules.mem_prefixes.mpr ⟨entry, hentry, hparse⟩
    rw [h] at hmem
    cases hmem
  · rintro ⟨entry, hentry, network, m, hparse, -⟩
    have hmem := PreparedRules.mem_prefixes.mpr ⟨entry, hentry, hparse⟩
    rw [h] at hmem
    cases hmem

namespace BlockList

theorem Holds.contains_iff {list : BlockList} {calls : List Call} (h : Holds list calls) (ip : IpAddr) : list.contains ip = true ↔
    (∃ entry ∈ currentRules calls, ∃ rule, parseEntry entry = some rule ∧ rule.Covers ip) ∨ ip.toCanonical ∈ recentBans calls := by
  have hbans : ip.toCanonical ∈ list.banned ↔ ip.toCanonical ∈ recentBans calls := by
    rw [← h.banOrder]
    exact h.banned.mem_iff
  rw [covers_iff, ← h.exact, ← h.v4Ranges, ← h.v6Ranges, ← hbans]
  unfold contains
  split
  · rename_i hempty
    unfold isEmpty at hempty
    rw [Bool.and_eq_true, Bool.and_eq_true, List.isEmpty_iff, List.isEmpty_iff, List.isEmpty_iff] at hempty
    obtain ⟨⟨hexact, hprefixes⟩, hbanned⟩ := hempty
    rw [h.prefixes] at hprefixes
    have hranges := not_rangeContains_of_prefixes hprefixes
    refine iff_of_false nofun ?_
    rw [hexact, hbanned, h.v4Ranges, h.v6Ranges]
    rintro ((hin | ⟨x, -, hx⟩ | ⟨x, -, hx⟩) | hin)
    · cases hin
    · exact (hranges x).1 hx
    · exact (hranges x).2 hx
    · cases hin
  · dsimp only
    split
    · rename_i hin
      rw [Bool.or_eq_true, List.contains_iff_mem, List.contains_iff_mem] at hin
      exact iff_of_true rfl (hin.elim (fun hexact => Or.inl (Or.inl hexact)) Or.inr)
    · rename_i hout
      rw [Bool.or_eq_true, List.contains_iff_mem, List.contains_iff_mem, not_or] at hout
      rw [or_iff_left hout.2, or_iff_right hout.1]
      cases ip with
      | v4 addr =>
        constructor
        · intro hin
          exact Or.inl ⟨_, rfl, hin⟩
        · rintro (⟨x, hx, hin⟩ | ⟨x, hx, -⟩)
          · cases hx
            exact hin
          · cases hx
      | v6 addr =>
        dsimp only
        rw [Bool.or_eq_true, Option.any_eq_true]
        refine or_congr Iff.rfl ?_
        constructor
        · intro hin
          exact ⟨addr, rfl, hin⟩
        · rintro ⟨x, hx, hin⟩
          cases hx
          exact hin

end BlockList

/-! ## Bans of different addresses -/

/-- As long as there are few, bans of different addresses are the recent ones. -/
theorem recentBans_distinct {ips : List IpAddr} (hcanonical : ∀ ip ∈ ips, ip.toCanonical = ip) (hnodup : ips.Nodup) (hfew : ips.length ≤ maxBanned) :
    recentBans (ips.map .ban) = ips := by
  induction ips using List.reverseRecOn with
  | nil => rfl
  | append_singleton ips ip ih =>
    rw [List.length_append, List.length_singleton] at hfew
    obtain ⟨hips, -, hapart⟩ := List.nodup_append.mp hnodup
    have hbefore := ih (fun ip hip => hcanonical ip (List.mem_append_left _ hip)) hips (by omega)
    have hself : ip.toCanonical = ip := hcanonical ip (List.mem_append_right _ (List.mem_singleton_self _))
    have hnew : ip ∉ ips := fun hin => hapart ip hin ip (List.mem_singleton_self _) rfl
    have hall : (ips ++ [ip]).length ≤ maxBanned := by
      rw [List.length_append, List.length_singleton]
      omega
    rw [List.map_append, List.map_singleton, BlockList.recentBans_concat, hbefore, hself, if_neg hnew, Nat.sub_eq_zero_of_le hall, List.drop_zero]

end Blocklist

end Risuko
