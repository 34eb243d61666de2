import Risuko.Lemmas.BencodeParser
import Risuko.Metainfo.Torrent

/-!
# The scanner and the decoder

The scanner goes over a rendered value as over one step (`skip_render`), so that on the rendering of a dictionary it stops at the entry
that a lookup finds (`spanFrom_renderEntries`).
-/

namespace Risuko

namespace Metainfo

open Bencode (Value ByteVec)
open Bencode.Value (renderItems renderEntries)

variable {platform : Platform} {fuel : ℕ} {value : Value} {infoRaw : List UInt8} {torrent : TorrentMeta}

/-! ## Scalars -/

theorem dropWhile_stop {stop : UInt8} {before : List UInt8} (h : stop ∉ before) (rest : List UInt8) :
    (before ++ stop :: rest).dropWhile (· ≠ stop) = stop :: rest := by
  rw [List.dropWhile_append_of_pos, List.dropWhile_cons_of_neg]
  · simp
  · intro b hb
    simpa using ne_of_mem_of_not_mem hb h

theorem takeWhile_stop {stop : UInt8} {before : List UInt8} (h : stop ∉ before) (rest : List UInt8) :
    (before ++ stop :: rest).takeWhile (· ≠ stop) = before := by
  rw [List.takeWhile_append_of_pos, List.takeWhile_cons_of_neg]
  · simp
  · simp
  · intro b hb
    simpa using ne_of_mem_of_not_mem hb h

theorem skip_int (n : Int64) (fuel : ℕ) (tail : List UInt8) : skip (fuel + 1) (Bencode.renderInt n ++ tail) = some tail := by
  have hnot : Bencode.ascii 'e' ∉ Bencode.showInt n.toInt := by
    unfold Bencode.showInt
    split
    · rw [List.mem_cons, not_or]
      exact ⟨by decide, Bencode.Parser.ascii_notin_decimal (by decide) _⟩
    · exact Bencode.Parser.ascii_notin_decimal (by decide) _
  have hsplit : Bencode.renderInt n ++ tail = Bencode.ascii 'i' :: (Bencode.showInt n.toInt ++ Bencode.ascii 'e' :: tail) := by
    simp [Bencode.renderInt]
  rw [hsplit, skip, if_pos rfl, if_pos (by simp), dropWhile_stop hnot]
  rfl

theorem skip_bytes (b : ByteVec) (fuel : ℕ) (tail : List UInt8) : skip (fuel + 1) (Bencode.renderBytes b.data ++ tail) = some tail := by
  have hlen := b.length_le
  have hmax : b.data.length < 2 ^ 64 := lt_of_le_of_lt hlen (by decide)
  obtain ⟨d, digits, hd⟩ := List.exists_cons_of_ne_nil (decimal_ne_nil b.data.length)
  have hdigit : isAsciiDigit d = true := List.all_eq_true.mp (decimal_all b.data.length) d (by rw [hd]; exact List.mem_cons_self)
  have hne : ∀ c : UInt8, isAsciiDigit c = false → d ≠ c := by
    rintro c hc rfl
    rw [hdigit] at hc
    cases hc
  have hcolon : Bencode.ascii ':' ∉ decimal b.data.length := Bencode.Parser.ascii_notin_decimal (by decide) _
  have hparse : Bencode.Parser.parseU64 (decimal b.data.length) = some b.data.length := by
    rw [Bencode.Parser.parseU64, Bencode.Parser.withoutPlus_eq (Bencode.Parser.head?_decimal_ne (by decide) _), parseDigits_decimal,
      Option.filter_some, if_pos (decide_eq_true hmax)]
  have hsplit : Bencode.renderBytes b.data ++ tail = d :: (digits ++ Bencode.ascii ':' :: (b.data ++ tail)) := by
    simp [Bencode.renderBytes, hd]
  have hback : d :: (digits ++ Bencode.ascii ':' :: (b.data ++ tail)) = decimal b.data.length ++ Bencode.ascii ':' :: (b.data ++ tail) := by
    simp [hd]
  rw [hsplit, skip, if_neg (hne _ (by decide)), if_neg (by simp [hne _ (show isAsciiDigit (Bencode.ascii 'l') = false by decide),
    hne _ (show isAsciiDigit (Bencode.ascii 'd') = false by decide)]), if_pos hdigit]
  simp only [hback, takeWhile_stop hcolon, dropWhile_stop hcolon, hparse]
  rw [if_neg (by simp), List.drop_succ_cons, List.drop_zero]
  simp

/-! ## Containers -/

/-- What is asked of the scanner: with fuel for the rendering it goes over it, whatever comes behind. -/
def SkipsOver (v : Value) : Prop := ∀ fuel tail, 2 * v.render.length ≤ fuel → skip fuel (v.render ++ tail) = some tail

theorem render_pos (v : Value) : 0 < v.render.length := by
  obtain ⟨b, rest, hb, -⟩ := Bencode.Parser.render_head v
  rw [hb, List.length_cons]
  exact Nat.succ_pos _

theorem skipAll_renderItems {items : List Value} (h : ∀ v ∈ items, SkipsOver v) :
    ∀ fuel tail, 2 * (renderItems items).length < fuel → skip.skipAll fuel (renderItems items ++ Bencode.ascii 'e' :: tail) = some tail := by
  induction items with
  | nil =>
    intro fuel tail hfuel
    obtain ⟨fuel, rfl⟩ := Nat.exists_eq_succ_of_ne_zero (Nat.ne_of_gt (Nat.zero_lt_of_lt hfuel))
    rw [renderItems, List.nil_append, skip.skipAll, if_pos rfl]
  | cons v items ih =>
    intro fuel tail hfuel
    obtain ⟨fuel, rfl⟩ := Nat.exists_eq_succ_of_ne_zero (Nat.ne_of_gt (Nat.zero_lt_of_lt hfuel))
    obtain ⟨hv, hitems⟩ := List.forall_mem_cons.mp h
    obtain ⟨b, rest, hb, hne⟩ := Bencode.Parser.render_head v
    have hpos := render_pos v
    rw [renderItems, List.length_append] at hfuel
    have hskip := hv fuel (renderItems items ++ Bencode.ascii 'e' :: tail) (by omega)
    rw [renderItems, List.append_assoc]
    rw [hb, List.cons_append] at hskip ⊢
    rw [skip.skipAll, if_neg hne, hskip]
    exact ih hitems fuel tail (by omega)

/-- The entries of a dictionary as a list of values. -/
theorem renderEntries_eq_renderItems (items : List (ByteVec × Value)) :
    renderEntries items = renderItems (items.flatMap fun e => [.bytes e.1, e.2]) := by
  induction items with
  | nil => rfl
  | cons e items ih =>
    rw [List.flatMap_cons, List.cons_append, List.singleton_append, renderItems, renderItems, ← ih, renderEntries, Bencode.Value.render]

theorem skip_container {b : UInt8} (hb : b = Bencode.ascii 'l' ∨ b = Bencode.ascii 'd') {items : List Value}
    (h : ∀ v ∈ items, SkipsOver v) (fuel : ℕ) (tail : List UInt8) (hfuel : 2 * ((renderItems items).length + 2) ≤ fuel) :
    skip fuel (b :: (renderItems items ++ Bencode.ascii 'e' :: tail)) = some tail := by
  obtain ⟨fuel, rfl⟩ := Nat.exists_eq_succ_of_ne_zero (show fuel ≠ 0 by omega)
  have hi : b ≠ Bencode.ascii 'i' := by
    rcases hb with rfl | rfl <;> decide
  rw [skip, if_neg hi, if_pos (by simpa using hb)]
  exact skipAll_renderItems h fuel tail (by omega)

/-- The scanner goes over every rendered value. -/
theorem skip_render (v : Value) : SkipsOver v := by
  induction v using Bencode.Value.induction with
  | int n =>
    intro fuel tail hfuel
    have hpos := render_pos (.int n)
    obtain ⟨fuel, rfl⟩ := Nat.exists_eq_succ_of_ne_zero (show fuel ≠ 0 by omega)
    exact skip_int n fuel tail
  | bytes b =>
    intro fuel tail hfuel
    have hpos := render_pos (.bytes b)
    obtain ⟨fuel, rfl⟩ := Nat.exists_eq_succ_of_ne_zero (show fuel ≠ 0 by omega)
    exact skip_bytes b fuel tail
  | list items ih =>
    intro fuel tail hfuel
    rw [Bencode.Value.render, List.length_cons, List.length_append, List.length_singleton] at hfuel
    rw [Bencode.Value.render, List.cons_append, List.append_assoc, List.singleton_append]
    exact skip_container (.inl rfl) ih fuel tail (by omega)
  | dict items ih =>
    intro fuel tail hfuel
    rw [Bencode.Value.render, List.length_cons, List.length_append, List.length_singleton, renderEntries_eq_renderItems] at hfuel
    rw [Bencode.Value.render, List.cons_append, List.append_assoc, List.singleton_append, renderEntries_eq_renderItems]
    refine skip_container (.inr rfl) (fun v hv => ?_) fuel tail (by omega)
    obtain ⟨e, he, hve⟩ := List.mem_flatMap.mp hv
    rcases List.mem_cons.mp hve with rfl | hve
    · intro fuel tail hfuel
      have hpos := render_pos (.bytes e.1)
      obtain ⟨fuel, rfl⟩ := Nat.exists_eq_succ_of_ne_zero (show fuel ≠ 0 by omega)
      exact skip_bytes e.1 fuel tail
    · rw [List.mem_singleton.mp hve]
      exact ih e he

/-! ## Entries -/

/-- Where the value of a key is in the rendering of entries that begins at `p`. -/
def entrySpan (key : List UInt8) : ℕ → List (ByteVec × Value) → Option (ℕ × ℕ)
  | _, [] => none
  | p, (k, v) :: items =>
    let keyEnd := p + (Bencode.renderBytes k.data).length
    let valEnd := keyEnd + v.render.length
    if k.data = key then some (keyEnd, valEnd) else entrySpan key valEnd items

theorem spanFrom_renderEntries (key : List UInt8) (items : List (ByteVec × Value)) : ∀ (fuel p : ℕ) (tail : List UInt8), items.length < fuel →
    spanFrom key fuel p (renderEntries items ++ Bencode.ascii 'e' :: tail) = entrySpan key p items := by
  induction items with
  | nil =>
    intro fuel p tail hfuel
    obtain ⟨fuel, rfl⟩ := Nat.exists_eq_succ_of_ne_zero (Nat.ne_of_gt hfuel)
    rw [renderEntries, List.nil_append, spanFrom, if_pos rfl, entrySpan]
  | cons e items ih =>
    intro fuel p tail hfuel
    obtain ⟨k, v⟩ := e
    obtain ⟨fuel, rfl⟩ := Nat.exists_eq_succ_of_ne_zero (Nat.ne_of_gt (Nat.zero_lt_of_lt hfuel))
    have hwhole : renderEntries ((k, v) :: items) ++ Bencode.ascii 'e' :: tail =
        Bencode.renderBytes k.data ++ (v.render ++ (renderEntries items ++ Bencode.ascii 'e' :: tail)) := by
      rw [renderEntries, List.append_assoc, List.append_assoc]
    have hskipv := skip_render v (2 * (v.render ++ (renderEntries items ++ Bencode.ascii 'e' :: tail)).length + 4)
      (renderEntries items ++ Bencode.ascii 'e' :: tail) (by rw [List.length_append]; omega)
    rw [hwhole]
    generalize hvalue : v.render ++ (renderEntries items ++ Bencode.ascii 'e' :: tail) = value at hskipv
    obtain ⟨b, rest, hb, hne⟩ := Bencode.Parser.render_head (.bytes k)
    rw [Bencode.Value.render] at hb
    have hskipk := skip_render (.bytes k) (2 * (rest ++ value).length + 4) value (by
      rw [Bencode.Value.render, hb, List.length_cons, List.length_append]
      omega)
    rw [Bencode.Value.render, hb, List.cons_append] at hskipk
    have htake : (b :: (rest ++ value)).take ((rest ++ value).length + 1 - value.length) = Bencode.renderBytes k.data := by
      rw [hb, ← List.cons_append]
      refine List.take_left' ?_
      rw [List.length_cons, List.length_append]
      omega
    have hcolon : Bencode.ascii ':' ∉ decimal k.data.length := Bencode.Parser.ascii_notin_decimal (by decide) _
    have hmem : Bencode.ascii ':' ∈ Bencode.renderBytes k.data := by simp [Bencode.renderBytes]
    have hkey : ((Bencode.renderBytes k.data).dropWhile (· ≠ Bencode.ascii ':')).drop 1 = k.data := by
      rw [Bencode.renderBytes, dropWhile_stop hcolon]
      rfl
    have hvlen : value.length - (renderEntries items ++ Bencode.ascii 'e' :: tail).length = v.render.length := by
      rw [← hvalue, List.length_append, Nat.add_sub_cancel]
    rw [hb, List.cons_append, spanFrom, if_neg hne, hskipk, entrySpan]
    simp only [htake, not_true_eq_false, hmem, if_false, hskipv, hkey, hvlen]
    split
    · rfl
    · exact ih fuel _ tail (by simpa using hfuel)

/-- The span is where the value of the entry that a lookup finds is rendered. -/
theorem entrySpan_spec (key : List UInt8) (input tail : List UInt8) (items : List (ByteVec × Value)) : ∀ p : ℕ,
    input.drop p = renderEntries items ++ tail →
    (entrySpan key p items).isSome = (items.find? fun e => e.1.data = key).isSome
      ∧ ∀ span, entrySpan key p items = some span → span.1 ≤ span.2 ∧ span.2 ≤ input.length
        ∧ ∃ k w, items.find? (fun e => e.1.data = key) = some (k, w) ∧ slice input span = w.render := by
  induction items with
  | nil =>
    intro p _
    exact ⟨rfl, nofun⟩
  | cons e items ih =>
    intro p hp
    obtain ⟨k, v⟩ := e
    rw [renderEntries, List.append_assoc, List.append_assoc] at hp
    have hkeyEnd : input.drop (p + (Bencode.renderBytes k.data).length) = v.render ++ (renderEntries items ++ tail) := by
      rw [← List.drop_drop, hp, List.drop_left]
    rw [entrySpan, List.find?_cons]
    by_cases hk : k.data = key
    · simp only [hk, decide_true, if_true]
      refine ⟨rfl, ?_⟩
      rintro _ ⟨⟩
      rw [hk] at hkeyEnd
      refine ⟨Nat.le_add_right _ _, ?_, k, v, rfl, ?_⟩
      · have hlen := congrArg List.length hkeyEnd
        have hpos := render_pos v
        rw [List.length_drop, List.length_append] at hlen
        show _ + v.render.length ≤ _
        omega
      · rw [slice, hkeyEnd, Nat.add_sub_cancel_left, List.take_left]
    · simp only [hk, decide_false, if_false]
      refine ih _ ?_
      rw [← List.drop_drop, hkeyEnd, List.drop_left]

/-! ## The raw info of a torrent -/

theorem infoBytes_finishV1 {info : ValidatedTorrentMetaV1Info}
    {infoV2 : Option ValidatedTorrentMetaV2Info}
    (h : finishV1 platform fuel value infoRaw info infoV2 = some (.ok torrent)) : torrent.infoBytes = infoRaw := by
  unfold finishV1 at h
  obtain ⟨files, -, heq⟩ := Option.map_eq_some_iff.mp h
  dsimp only at heq
  split at heq
  · cases heq
    rfl
  · split at heq
    · cases heq
    · cases heq
      rfl

theorem infoBytes_parseV2Torrent {infoValue : Value}
    (h : parseV2Torrent platform fuel value infoValue infoRaw = some (.ok torrent)) : torrent.infoBytes = infoRaw := by
  unfold parseV2Torrent at h
  split at h
  · cases h
  split at h
  · cases h
  obtain ⟨info, -, heq⟩ := Option.map_eq_some_iff.mp h
  split at heq
  · cases heq
  · cases heq
    rfl

theorem infoBytes_parseV1Torrent {infoValue : Value} {hasV2 : Bool}
    (h : parseV1Torrent platform fuel value infoValue infoRaw hasV2 = some (.ok torrent)) :
    torrent.infoBytes = infoRaw := by
  unfold parseV1Torrent at h
  split at h
  · cases h
  split at h
  · split at h
    · cases h
    · exact infoBytes_finishV1 h
  · exact infoBytes_finishV1 h

/-- The raw info of a torrent is the field of the scanner, and its fields are read from the value that `get` returns. -/
theorem infoBytes_of_parseTorrent {bytes : List UInt8}
    (h : parseTorrent platform fuel bytes = some (.ok torrent)) (hvalue : Bencode.decodeAll bytes = .ok value) :
    (topLevelFieldSpan bytes ("info".toList.map Bencode.ascii)).map (slice bytes) = some torrent.infoBytes ∧ (value.get "info").isSome := by
  unfold parseTorrent at h
  rw [hvalue] at h
  dsimp only at h
  split at h
  · cases h
  split at h
  · rename_i infoRaw infoValue hraw hinfo
    rw [hraw, hinfo]
    refine ⟨?_, rfl⟩
    split at h
    · cases h
    split at h
    · cases h
    split at h
    · cases h
    · rw [infoBytes_parseV2Torrent h]
    · rw [infoBytes_parseV1Torrent h]
  · cases h

end Metainfo

end Risuko
