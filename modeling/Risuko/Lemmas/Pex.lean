import Risuko.Lemmas.BencodeParser
import Risuko.Lemmas.Message
import Risuko.Wire.Pex

/-!
# Peer exchange, there and back

What is built of a list of addresses, and what the parser makes of it: the addresses of one family stand in their string in the order
they were in (`parseCompactPex_flatMap`), each with its flag (`parseCompactPexFlagged_flatMap`).
-/

namespace Risuko

open Bencode (ByteVec Value)

namespace Pex

variable {added : List (SocketAddr × UInt8)} {dropped : List SocketAddr}

/-- An address without its flow label and its scope. -/
def SocketAddr.bare : SocketAddr → SocketAddr
  | v4 octets port => v4 octets port
  | v6 octets port _ _ => v6 octets port 0 0

/-- The addresses of one family. -/
def family (v6 : Bool) (addrs : List SocketAddr) : List SocketAddr := addrs.filter fun addr => addr.isIpv6 = v6

/-- The entries of one family. -/
def entries (v6 : Bool) (added : List (SocketAddr × UInt8)) : List (SocketAddr × UInt8) := added.filter fun e => e.1.isIpv6 = v6

/-! ## Single addresses -/

@[simp] theorem isIpv6_bare (addr : SocketAddr) : addr.bare.isIpv6 = addr.isIpv6 := by cases addr <;> rfl

@[simp] theorem compact_bare (addr : SocketAddr) : compact addr.bare = compact addr := by cases addr <;> rfl

@[simp] theorem validPexEndpoint_bare (addr : SocketAddr) : validPexEndpoint addr.bare = validPexEndpoint addr := by cases addr <;> rfl

theorem length_compact (addr : SocketAddr) : (compact addr).length = width addr.isIpv6 := by
  cases addr with
  | v4 octets port =>
    show (octets.data ++ beBytes16 port).length = 6
    rw [List.length_append, octets.length_eq]
    rfl
  | v6 octets port flowinfo scopeId =>
    show (octets.data ++ beBytes16 port).length = 18
    rw [List.length_append, octets.length_eq]
    rfl

/-- The octets and the two bytes of the port are found where the parser looks for them. -/
theorem compact_parts {n : ℕ} {data : List UInt8} (hdata : data.length = n) (port : UInt16) :
    (data ++ beBytes16 port).take n = data ∧ (data ++ beBytes16 port)[n]? = some (port >>> 8).toUInt8 ∧
      (data ++ beBytes16 port)[n + 1]? = some port.toUInt8 := by
  subst hdata
  refine ⟨List.take_left, ?_, ?_⟩
  · rw [List.getElem?_append_right (Nat.le_refl _), Nat.sub_self]
    rfl
  · rw [List.getElem?_append_right (Nat.le_add_right _ 1), Nat.add_sub_cancel_left]
    rfl

theorem decodeCompactAddr_v4 {chunk : List UInt8} {octets : Octets 4} {hi lo : UInt8} (htake : chunk.take 4 = octets.data)
    (hhi : chunk[4]? = some hi) (hlo : chunk[5]? = some lo) :
    decodeCompactAddr chunk false = (some (SocketAddr.v4 octets (ofBeBytes16 hi lo))).filter validPexEndpoint := by
  obtain ⟨data, hdata⟩ := octets
  subst htake
  unfold decodeCompactAddr
  rw [if_neg Bool.false_ne_true, dif_pos hdata, hhi, hlo]
  rfl

theorem decodeCompactAddr_v6 {chunk : List UInt8} {octets : Octets 16} {hi lo : UInt8} (htake : chunk.take 16 = octets.data)
    (hhi : chunk[16]? = some hi) (hlo : chunk[17]? = some lo) :
    decodeCompactAddr chunk true = (some (SocketAddr.v6 octets (ofBeBytes16 hi lo) 0 0)).filter validPexEndpoint := by
  obtain ⟨data, hdata⟩ := octets
  subst htake
  unfold decodeCompactAddr
  rw [if_pos rfl, dif_pos hdata, hhi, hlo]
  rfl

/-- A valid address is read back without its flow label and its scope. -/
theorem decodeCompactAddr_compact {addr : SocketAddr} (h : validPexEndpoint addr = true) :
    decodeCompactAddr (compact addr) addr.isIpv6 = some addr.bare := by
  rw [← validPexEndpoint_bare] at h
  have hvalid : (some addr.bare).filter validPexEndpoint = some addr.bare := by rw [Option.filter_some, if_pos h]
  rw [← hvalid]
  cases addr with
  | v4 octets port =>
    obtain ⟨htake, hhi, hlo⟩ := compact_parts octets.length_eq port
    have hdecoded := decodeCompactAddr_v4 htake hhi hlo
    rwa [ofBeBytes16_beBytes16] at hdecoded
  | v6 octets port flowinfo scopeId =>
    obtain ⟨htake, hhi, hlo⟩ := compact_parts octets.length_eq port
    have hdecoded := decodeCompactAddr_v6 htake hhi hlo
    rwa [ofBeBytes16_beBytes16] at hdecoded

/-! ## Lists of addresses -/

/-- A string of pieces of one width falls into them. -/
theorem chunksExact_flatMap {α : Type} (f : α → List UInt8) {n : ℕ} (hn : 0 < n) (l : List α) (h : ∀ a ∈ l, (f a).length = n) :
    chunksExact n (l.flatMap f) = l.map f := by
  induction l with
  | nil => rw [chunksExact, List.flatMap_nil, List.length_nil, Nat.zero_div]; rfl
  | cons a l ih =>
    have ha := h a List.mem_cons_self
    have hcount : (f a ++ l.flatMap f).length / n = (l.flatMap f).length / n + 1 := by
      rw [List.length_append, ha, Nat.add_div_left _ hn]
    have hrest := ih fun b hb => h b (List.mem_cons_of_mem a hb)
    rw [chunksExact] at hrest
    rw [List.flatMap_cons, chunksExact, hcount, List.range_succ_eq_map, List.map_cons, List.map_cons, List.map_map, ← hrest]
    refine congrArg₂ List.cons ?_ (List.map_congr_left fun i _ => ?_)
    · rw [Nat.mul_zero, List.drop_zero, ← ha]
      exact List.take_left
    · rw [Function.comp_apply, Nat.mul_succ, Nat.add_comm, ← List.drop_drop, ← ha, List.drop_left]

theorem width_pos (v6 : Bool) : 0 < width v6 := by cases v6 <;> decide

theorem length_flatMap_compact {v6 : Bool} {addrs : List SocketAddr} (h : ∀ addr ∈ addrs, addr.isIpv6 = v6) :
    (addrs.flatMap compact).length = width v6 * addrs.length := by
  induction addrs with
  | nil => rfl
  | cons addr addrs ih =>
    rw [List.flatMap_cons, List.length_append, length_compact, h addr List.mem_cons_self,
      ih fun a ha => h a (List.mem_cons_of_mem addr ha), List.length_cons, Nat.mul_succ, Nat.add_comm]

theorem parseCompactPex_flatMap {v6 : Bool} {addrs : List SocketAddr}
    (h : ∀ addr ∈ addrs, addr.isIpv6 = v6 ∧ validPexEndpoint addr = true) :
    parseCompactPex (addrs.flatMap compact) v6 = addrs.map SocketAddr.bare := by
  have hwidth : ∀ addr ∈ addrs, (compact addr).length = width v6 := by
    intro addr haddr
    rw [length_compact, (h addr haddr).1]
  rw [parseCompactPex, chunksExact_flatMap compact (width_pos v6) addrs hwidth, List.filterMap_map, ← List.filterMap_eq_map]
  refine List.filterMap_congr fun addr haddr => ?_
  rw [Function.comp_apply, ← (h addr haddr).1]
  exact decodeCompactAddr_compact (h addr haddr).2

/-- Every address has the flag that stands at its place. -/
theorem parseCompactPexFlagged_flatMap {v6 : Bool}
    (h : ∀ e ∈ added, e.1.isIpv6 = v6 ∧ validPexEndpoint e.1 = true) (remaining : ℕ) :
    parseCompactPexFlagged (added.flatMap fun e => compact e.1) (added.map Prod.snd) v6 remaining =
      (added.map fun e => (e.1.bare, e.2)).take remaining := by
  have hwidth : ∀ e ∈ added, (compact e.1).length = width v6 := by
    intro e he
    rw [length_compact, (h e he).1]
  -- The flags before those of the entries at hand are as many as the places passed.
  have haligned : ∀ (added : List (SocketAddr × UInt8)) (passed : List UInt8),
      (∀ e ∈ added, e.1.isIpv6 = v6 ∧ validPexEndpoint e.1 = true) →
      (((added.map fun e => compact e.1).zipIdx passed.length).filterMap fun e =>
        (decodeCompactAddr e.1 v6).map fun addr => (addr, (passed ++ added.map Prod.snd).getD e.2 0)) =
        added.map fun e => (e.1.bare, e.2) := by
    intro added
    induction added with
    | nil => exact fun passed _ => rfl
    | cons e added ih =>
      intro passed h
      obtain ⟨hfamily, hvalid⟩ := h e List.mem_cons_self
      have hrest := ih (passed ++ [e.2]) fun a ha => h a (List.mem_cons_of_mem e ha)
      rw [List.length_append, List.length_singleton, List.append_assoc, List.singleton_append] at hrest
      have hdecoded : decodeCompactAddr (compact e.1) v6 = some e.1.bare := by
        rw [← hfamily]
        exact decodeCompactAddr_compact hvalid
      have hflag : (passed ++ e.2 :: added.map Prod.snd).getD passed.length 0 = e.2 := by
        rw [List.getD_eq_getElem?_getD, List.getElem?_append_right (Nat.le_refl _), Nat.sub_self]
        rfl
      rw [List.map_cons, List.map_cons, List.zipIdx_cons, List.filterMap_cons, hdecoded, Option.map_some, hflag, hrest, List.map_cons]
  have hall := haligned added [] h
  rw [List.length_nil] at hall
  rw [parseCompactPexFlagged, chunksExact_flatMap (fun e => compact e.1) (width_pos v6) added hwidth]
  exact congrArg (List.take remaining) hall

theorem split_eq (addrs : List SocketAddr) : split addrs = ((family false addrs).flatMap compact, (family true addrs).flatMap compact) := by
  induction addrs with
  | nil => rfl
  | cons addr addrs ih =>
    rw [split, ih]
    cases addr <;> rfl

theorem family_map_fst (v6 : Bool) (added : List (SocketAddr × UInt8)) :
    family v6 (added.map Prod.fst) = (entries v6 added).map Prod.fst := by
  rw [family, List.filter_map]
  rfl

/-! ## Messages -/

theorem length_decimal_le (n : ℕ) : (decimal n).length ≤ n + 1 := by
  unfold decimal
  split
  · exact Nat.le_add_left 1 n
  · rw [List.length_map, List.length_reverse, Nat.digits_length_le_iff (by decide)]
    exact (Nat.lt_pow_self (by decide)).trans_le (Nat.pow_le_pow_right (by decide) (Nat.le_succ n))

theorem length_renderBytes_le (bytes : List UInt8) : (Bencode.renderBytes bytes).length ≤ 2 * bytes.length + 2 := by
  have h := length_decimal_le bytes.length
  rw [Bencode.renderBytes, List.length_append, List.length_cons]
  omega

theorem length_renderEntries_le {bound : ℕ} (items : List (ByteVec × ByteVec))
    (h : ∀ e ∈ items, e.1.data.length + e.2.data.length ≤ bound) :
    (Value.renderEntries (Bencode.flat items)).length ≤ (2 * bound + 4) * items.length := by
  induction items with
  | nil => exact Nat.zero_le _
  | cons e items ih =>
    have hrest := ih fun a ha => h a (List.mem_cons_of_mem e ha)
    have hpair := h e List.mem_cons_self
    have hkey := length_renderBytes_le e.1.data
    have hbytes := length_renderBytes_le e.2.data
    have hsplit : (Value.renderEntries (Bencode.flat (e :: items))).length =
        (Bencode.renderBytes e.1.data).length + ((Bencode.renderBytes e.2.data).length +
          (Value.renderEntries (Bencode.flat items)).length) := by
      rw [Bencode.flat, List.map_cons, Value.renderEntries, List.length_append, List.length_append]
      rfl
    rw [hsplit, List.length_cons, Nat.mul_succ]
    omega

theorem vec_eq {bytes : List UInt8} (h : bytes.length ≤ Bencode.isizeMax) : vec bytes = some ⟨bytes, h⟩ := dif_pos h

/-- Texts that are short enough are the entries of a dictionary of byte strings. -/
theorem exists_flat (texts : List (String × List UInt8))
    (h : ∀ e ∈ texts, (keyOf e.1).length + e.2.length ≤ Bencode.isizeMax) :
    ∃ items, (texts.mapM fun e => entry e.1 e.2) = some (Bencode.flat items) ∧
      items.map (fun e => (e.1.data, e.2.data)) = texts.map fun e => (keyOf e.1, e.2) := by
  induction texts with
  | nil => exact ⟨[], rfl, rfl⟩
  | cons e texts ih =>
    obtain ⟨items, hitems, hdata⟩ := ih fun a ha => h a (List.mem_cons_of_mem e ha)
    have hlen := h e List.mem_cons_self
    refine ⟨(⟨keyOf e.1, by omega⟩, ⟨e.2, by omega⟩) :: items, ?_, ?_⟩
    · have hentry : entry e.1 e.2 = some (⟨keyOf e.1, by omega⟩, .bytes ⟨e.2, by omega⟩) := by
        rw [entry, vec_eq (by omega), vec_eq (by omega)]
        rfl
      rw [List.mapM_cons, hentry, hitems]
      rfl
    · rw [List.map_cons, List.map_cons, hdata]

/-- What stands under a key is found. -/
theorem bytesOf_flat {items : List (ByteVec × ByteVec)} (hkeys : (items.map fun e => e.1.data).Nodup) {key : String} {bytes : List UInt8}
    (h : (keyOf key, bytes) ∈ items.map fun e => (e.1.data, e.2.data)) : bytesOf (Bencode.flat items) key = bytes := by
  obtain ⟨e, he, heq⟩ := List.mem_map.mp h
  obtain ⟨hkey, rfl⟩ := Prod.mk.inj heq
  have hfind : (Bencode.flat items).find? (fun e => e.1.data = keyOf key) = some (e.1, .bytes e.2) := by
    rw [Bencode.flat, List.find?_map]
    have hfirst : items.find? (fun e => e.1.data = keyOf key) = some e := by
      induction items with
      | nil => cases he
      | cons a items ih =>
        rw [List.map_cons, List.nodup_cons] at hkeys
        rcases List.mem_cons.mp he with rfl | he
        · rw [List.find?_cons, decide_eq_true hkey]
        · have hne : a.1.data ≠ keyOf key := by
            intro heq
            exact hkeys.1 (List.mem_map.mpr ⟨e, he, hkey.trans heq.symm⟩)
          rw [List.find?_cons, decide_eq_false hne]
          exact ih hkeys.2 he (List.mem_map.mpr ⟨e, he, heq⟩)
    exact congrArg (Option.map _) hfirst
  rw [bytesOf, hfind]
  rfl

/-- A dictionary of a few short texts, with its keys in order, is sent and read back. -/
theorem message_some {texts : List (String × List UInt8)} (hsorted : (texts.map fun e => keyOf e.1).Pairwise (· < ·))
    (hlen : ∀ e ∈ texts, (keyOf e.1).length + e.2.length ≤ 1000) (hcount : texts.length ≤ 6) :
    ∃ payload dict, ((texts.mapM fun e => entry e.1 e.2).bind fun dict => Bencode.encodeToVec (.dict dict)) = some payload ∧
      Bencode.decodeAllExternal payload extensionDecodeLimits = .ok (.dict dict) ∧ ∀ e ∈ texts, bytesOf dict e.1 = e.2 := by
  obtain ⟨items, hitems, hdata⟩ := exists_flat texts fun e he => (hlen e he).trans (by decide)
  have hkeys : (items.map fun e => e.1.data) = texts.map fun e => keyOf e.1 := by
    have hfst := congrArg (List.map Prod.fst) hdata
    rwa [List.map_map, List.map_map] at hfst
  have hcount' : items.length = texts.length := by
    have hlength := congrArg List.length hdata
    rwa [List.length_map, List.length_map] at hlength
  have hbound : ∀ e ∈ items, e.1.data.length + e.2.data.length ≤ 1000 := by
    intro e he
    have hmem : (e.1.data, e.2.data) ∈ texts.map fun e => (keyOf e.1, e.2) := hdata ▸ List.mem_map_of_mem he
    obtain ⟨text, htext, heq⟩ := List.mem_map.mp hmem
    obtain ⟨hkey, hbytes⟩ := Prod.mk.inj heq
    rw [← hkey, ← hbytes]
    exact hlen text htext
  have hincreasing : (Value.dict (Bencode.flat items)).KeysIncreasing := by
    refine ⟨?_, Value.keysIncreasingEntries_iff.mpr fun e he => ?_⟩
    · have hflat : Value.keys (Bencode.flat items) = items.map fun e => e.1.data := by
        rw [Value.keys, Bencode.flat, List.map_map]
        rfl
      rw [hflat, hkeys]
      exact hsorted
    · obtain ⟨a, -, rfl⟩ := List.mem_map.mp he
      trivial
  have hencoded := Value.encodeToVec_canonical (Value.uniqueKeys_of_keysIncreasing hincreasing)
  rw [Value.canonical_eq_self hincreasing] at hencoded
  have hsize := length_renderEntries_le items hbound
  refine ⟨(Value.dict (Bencode.flat items)).render, Bencode.flat items, ?_, ?_, fun e he => ?_⟩
  · rw [hitems]
    exact hencoded
  · refine Bencode.decodeAllExternal_flat items ?_ (by decide) ?_
    · have hroom : (2 * 1000 + 4) * items.length ≤ 12024 := by omega
      have hlimit : extensionDecodeLimits.maxInputLen = 2097152 := rfl
      rw [Value.render, List.length_cons, List.length_append, List.length_singleton, hlimit]
      omega
    · have hlimit : extensionDecodeLimits.maxValues = 65536 := rfl
      omega
  · refine bytesOf_flat ?_ ?_
    · rw [hkeys]
      exact hsorted.imp fun hlt => ne_of_lt hlt
    · rw [hdata]
      exact List.mem_map_of_mem (f := fun e => (keyOf e.1, e.2)) he

/-! ## What is sent -/

/-- The entries that are sent: the first fifty valid ones. -/
def sentAdded (added : List (SocketAddr × UInt8)) : List (SocketAddr × UInt8) := (added.filter fun e => validPexEndpoint e.1).take 50

/-- The addresses that are sent as gone: the first fifty valid ones. -/
def sentDropped (dropped : List SocketAddr) : List SocketAddr := (dropped.filter validPexEndpoint).take 50

/-- The texts of a message. -/
def texts (added : List (SocketAddr × UInt8)) (dropped : List SocketAddr) : List (String × List UInt8) :=
  [("added", (entries false added).flatMap fun e => compact e.1), ("added.f", (entries false added).map Prod.snd),
    ("added6", (entries true added).flatMap fun e => compact e.1), ("added6.f", (entries true added).map Prod.snd),
    ("dropped", (family false dropped).flatMap compact), ("dropped6", (family true dropped).flatMap compact)]

/-- What the other side gets: the addresses of IPv4, then those of IPv6, without flow labels and scopes. -/
def received (added : List (SocketAddr × UInt8)) (dropped : List SocketAddr) : UtPex where
  added := (entries false added ++ entries true added).map fun e => (e.1.bare, e.2)
  dropped := (family false dropped ++ family true dropped).map SocketAddr.bare

theorem buildUtPex_eq (added : List (SocketAddr × UInt8)) (dropped : List SocketAddr) :
    buildUtPex added dropped =
      ((texts (sentAdded added) (sentDropped dropped)).mapM fun e => entry e.1 e.2).bind fun dict => Bencode.encodeToVec (.dict dict) := by
  have hfst : ∀ v6, (family v6 ((sentAdded added).map Prod.fst)).flatMap compact = (entries v6 (sentAdded added)).flatMap fun e => compact e.1 := by
    intro v6
    rw [family_map_fst, List.flatMap_map]
  unfold buildUtPex
  dsimp only
  rw [split_eq, split_eq, ← sentAdded, ← sentDropped]
  dsimp only
  rw [hfst, hfst]
  rfl

theorem length_families (addrs : List SocketAddr) : (family false addrs).length + (family true addrs).length = addrs.length := by
  induction addrs with
  | nil => rfl
  | cons addr addrs ih =>
    cases addr with
    | v4 octets port =>
      show (family false addrs).length + 1 + (family true addrs).length = addrs.length + 1
      omega
    | v6 octets port flowinfo scopeId =>
      show (family false addrs).length + ((family true addrs).length + 1) = addrs.length + 1
      omega

theorem length_entries (added : List (SocketAddr × UInt8)) : (entries false added).length + (entries true added).length = added.length := by
  have h := length_families (added.map Prod.fst)
  rwa [family_map_fst, family_map_fst, List.length_map, List.length_map, List.length_map] at h

theorem family_received (v6 : Bool) (addrs : List SocketAddr) :
    family v6 ((family false addrs ++ family true addrs).map SocketAddr.bare) = (family v6 addrs).map SocketAddr.bare := by
  have hbare : ((fun addr : SocketAddr => decide (addr.isIpv6 = v6)) ∘ SocketAddr.bare) = fun addr => decide (addr.isIpv6 = v6) := by
    funext addr
    simp
  rw [family, List.filter_map, hbare, List.filter_append, ← family, ← family]
  refine congrArg (List.map SocketAddr.bare) ?_
  cases v6 <;> simp [family, List.filter_filter]

theorem entries_received (v6 : Bool) (added : List (SocketAddr × UInt8)) :
    entries v6 ((entries false added ++ entries true added).map fun e => (e.1.bare, e.2)) =
      (entries v6 added).map fun e => (e.1.bare, e.2) := by
  have hbare : ((fun e : SocketAddr × UInt8 => decide (e.1.isIpv6 = v6)) ∘ fun e : SocketAddr × UInt8 => (e.1.bare, e.2)) =
      fun e => decide (e.1.isIpv6 = v6) := by
    funext e
    simp
  rw [entries, List.filter_map, hbare, List.filter_append, ← entries, ← entries]
  refine congrArg (List.map fun e : SocketAddr × UInt8 => (e.1.bare, e.2)) ?_
  cases v6 <;> simp [entries, List.filter_filter]

/-- What was received has the same texts. -/
theorem texts_received (added : List (SocketAddr × UInt8)) (dropped : List SocketAddr) :
    texts (received added dropped).added (received added dropped).dropped = texts added dropped := by
  have hadded : ∀ v6, (entries v6 (received added dropped).added).flatMap (fun e => compact e.1) =
      (entries v6 added).flatMap fun e => compact e.1 := by
    intro v6
    rw [received, entries_received, List.flatMap_map]
    simp only [compact_bare]
  have hflags : ∀ v6, (entries v6 (received added dropped).added).map Prod.snd = (entries v6 added).map Prod.snd := by
    intro v6
    rw [received, entries_received, List.map_map]
    rfl
  have hdropped : ∀ v6, (family v6 (received added dropped).dropped).flatMap compact = (family v6 dropped).flatMap compact := by
    intro v6
    rw [received, family_received, List.flatMap_map]
    simp only [compact_bare]
  rw [texts, hadded, hadded, hflags, hflags, hdropped, hdropped, texts]

/-- What is sent is valid and no more than fifty. -/
theorem sentAdded_valid {e : SocketAddr × UInt8} (h : e ∈ sentAdded added) :
    validPexEndpoint e.1 = true := (List.mem_filter.mp (List.mem_of_mem_take h)).2

theorem sentDropped_valid {addr : SocketAddr} (h : addr ∈ sentDropped dropped) :
    validPexEndpoint addr = true := (List.mem_filter.mp (List.mem_of_mem_take h)).2

theorem sentAdded_of_valid (h : ∀ e ∈ added, validPexEndpoint e.1 = true)
    (hlen : added.length ≤ 50) : sentAdded added = added := by
  rw [sentAdded, List.filter_eq_self.mpr h, List.take_of_length_le hlen]

theorem sentDropped_of_valid (h : ∀ addr ∈ dropped, validPexEndpoint addr = true)
    (hlen : dropped.length ≤ 50) : sentDropped dropped = dropped := by
  rw [sentDropped, List.filter_eq_self.mpr h, List.take_of_length_le hlen]

/-- What was received is sent again. -/
theorem sent_received (added : List (SocketAddr × UInt8)) (dropped : List SocketAddr) :
    sentAdded (received (sentAdded added) (sentDropped dropped)).added = (received (sentAdded added) (sentDropped dropped)).added ∧
      sentDropped (received (sentAdded added) (sentDropped dropped)).dropped =
        (received (sentAdded added) (sentDropped dropped)).dropped := by
  constructor
  · refine sentAdded_of_valid (fun e he => ?_) ?_
    · obtain ⟨a, ha, rfl⟩ := List.mem_map.mp he
      rw [validPexEndpoint_bare]
      rcases List.mem_append.mp ha with ha | ha
      · exact sentAdded_valid (List.mem_of_mem_filter ha)
      · exact sentAdded_valid (List.mem_of_mem_filter ha)
    · rw [received, List.length_map, List.length_append, length_entries]
      exact List.length_take_le _ _
  · refine sentDropped_of_valid (fun addr haddr => ?_) ?_
    · obtain ⟨a, ha, rfl⟩ := List.mem_map.mp haddr
      rw [validPexEndpoint_bare]
      rcases List.mem_append.mp ha with ha | ha
      · exact sentDropped_valid (List.mem_of_mem_filter ha)
      · exact sentDropped_valid (List.mem_of_mem_filter ha)
    · rw [received, List.length_map, List.length_append, length_families]
      exact List.length_take_le _ _

/-- The keys of a message are in order, and its texts are short. -/
theorem texts_short (hadded : added.length ≤ 50)
    (hdropped : dropped.length ≤ 50) : ∀ e ∈ texts added dropped, (keyOf e.1).length + e.2.length ≤ 1000 := by
  have hentries := length_entries added
  have hfamilies := length_families dropped
  have hcompact : ∀ v6, ((entries v6 added).flatMap fun e => compact e.1).length = width v6 * (entries v6 added).length := by
    intro v6
    rw [← List.flatMap_map (f := Prod.fst), length_flatMap_compact, List.length_map]
    intro addr haddr
    obtain ⟨e, he, rfl⟩ := List.mem_map.mp haddr
    exact of_decide_eq_true (List.mem_filter.mp he).2
  have hgone : ∀ v6, ((family v6 dropped).flatMap compact).length = width v6 * (family v6 dropped).length := by
    intro v6
    exact length_flatMap_compact fun addr haddr => of_decide_eq_true (List.mem_filter.mp haddr).2
  have hkeys : ∀ key ∈ ["added", "added.f", "added6", "added6.f", "dropped", "dropped6"], (keyOf key).length ≤ 8 := by decide
  have hwidth : width false = 6 ∧ width true = 18 := ⟨rfl, rfl⟩
  intro e he
  simp only [texts, List.mem_cons, List.not_mem_nil, or_false] at he
  have hkey : (keyOf e.1).length ≤ 8 := by
    refine hkeys e.1 ?_
    rcases he with rfl | rfl | rfl | rfl | rfl | rfl <;> simp
  have hbytes : e.2.length ≤ 900 := by
    rcases he with rfl | rfl | rfl | rfl | rfl | rfl
    · rw [hcompact, hwidth.1]
      omega
    · rw [List.length_map]
      omega
    · rw [hcompact, hwidth.2]
      omega
    · rw [List.length_map]
      omega
    · rw [hgone, hwidth.1]
      omega
    · rw [hgone, hwidth.2]
      omega
  omega

/-- A message is built, and parsed as what is received of it. -/
theorem buildUtPex_parse (added : List (SocketAddr × UInt8)) (dropped : List SocketAddr) :
    ∃ payload, buildUtPex added dropped = some payload ∧
      parseUtPexFull payload = some (received (sentAdded added) (sentDropped dropped)) := by
  have hadded : (sentAdded added).length ≤ 50 := List.length_take_le _ _
  have hdropped : (sentDropped dropped).length ≤ 50 := List.length_take_le _ _
  have hsorted : ((texts (sentAdded added) (sentDropped dropped)).map fun e => keyOf e.1).Pairwise (· < ·) := by
    have hkeys : ([keyOf "added", keyOf "added.f", keyOf "added6", keyOf "added6.f", keyOf "dropped", keyOf "dropped6"]).Pairwise (· < ·) := by
      decide
    exact hkeys
  obtain ⟨payload, dict, hbuilt, hdecoded, hbytes⟩ := message_some hsorted (texts_short hadded hdropped) (Nat.le_refl _)
  simp only [texts, List.forall_mem_cons] at hbytes
  obtain ⟨hadded4, hflags4, hadded6, hflags6, hdropped4, hdropped6, -⟩ := hbytes
  refine ⟨payload, (buildUtPex_eq added dropped).trans hbuilt, ?_⟩
  have hvalid : ∀ v6, ∀ e ∈ entries v6 (sentAdded added), e.1.isIpv6 = v6 ∧ validPexEndpoint e.1 = true := by
    intro v6 e he
    exact ⟨of_decide_eq_true (List.mem_filter.mp he).2, sentAdded_valid (List.mem_of_mem_filter he)⟩
  have hgone : ∀ v6, ∀ addr ∈ family v6 (sentDropped dropped), addr.isIpv6 = v6 ∧ validPexEndpoint addr = true := by
    intro v6 addr haddr
    exact ⟨of_decide_eq_true (List.mem_filter.mp haddr).2, sentDropped_valid (List.mem_of_mem_filter haddr)⟩
  have hentries := length_entries (sentAdded added)
  unfold parseUtPexFull
  rw [hdecoded]
  dsimp only [Value.asDict, Option.map_some]
  rw [hadded4, hflags4, hadded6, hflags6, hdropped4, hdropped6, parseCompactPexFlagged_flatMap (hvalid false),
    parseCompactPexFlagged_flatMap (hvalid true), parseCompactPex_flatMap (hgone false), parseCompactPex_flatMap (hgone true)]
  have hfirst : ((entries false (sentAdded added)).map fun e => (e.1.bare, e.2)).take 50 =
      (entries false (sentAdded added)).map fun e => (e.1.bare, e.2) := by
    refine List.take_of_length_le ?_
    rw [List.length_map]
    omega
  have hlast : ∀ n, (entries true (sentAdded added)).length ≤ n →
      ((entries true (sentAdded added)).map fun e => (e.1.bare, e.2)).take n =
        (entries true (sentAdded added)).map fun e => (e.1.bare, e.2) := by
    intro n hn
    exact List.take_of_length_le ((List.length_map _).trans_le hn)
  have hgoneAll : ((family false (sentDropped dropped) ++ family true (sentDropped dropped)).map SocketAddr.bare).take 50 =
      (family false (sentDropped dropped) ++ family true (sentDropped dropped)).map SocketAddr.bare := by
    refine List.take_of_length_le ?_
    rw [List.length_map, List.length_append, length_families]
    exact hdropped
  refine congrArg some ?_
  rw [hfirst, ← List.map_append, hgoneAll, received, List.length_map]
  refine congrArg₂ UtPex.mk ?_ rfl
  split
  · rw [hlast _ (by omega), ← List.map_append]
  · -- Fifty addresses of IPv4 leave none of IPv6.
    have hnone : entries true (sentAdded added) = [] := List.eq_nil_of_length_eq_zero (by omega)
    rw [hnone, List.append_nil]

end Pex

end Risuko
