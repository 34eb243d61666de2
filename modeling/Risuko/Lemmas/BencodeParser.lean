import Risuko.Bencode.Parser
import Risuko.Lemmas.BencodeValue

/-!
# The bencode parser against the rendering

`Parser.Read v room p p'` says that between two states of a parser lies exactly the rendering of a value that keeps the rules. A
strict parser that returns has read its value so (`parseValue_sound`), and every such value is read (`parseValue_complete`).
-/

namespace Risuko

namespace Bencode

namespace Parser

/-! ## Scalars -/

theorem takeUntil_ok {stop : UInt8} {bs digits : List UInt8} {pos : Nat} :
    takeUntil stop bs pos = .ok digits ↔ stop ∉ digits ∧ ∃ tail, bs = digits ++ stop :: tail := by
  induction bs generalizing digits pos with
  | nil => simp [takeUntil]
  | cons b bs ih =>
    unfold takeUntil
    by_cases hb : b = stop
    · rw [if_pos hb]
      subst hb
      constructor
      · intro h
        cases h
        exact ⟨by simp, bs, rfl⟩
      · rintro ⟨hnot, tail, heq⟩
        cases digits with
        | nil => rfl
        | cons d digits =>
          obtain ⟨rfl, -⟩ := List.cons.inj heq
          exact absurd List.mem_cons_self hnot
    · rw [if_neg hb]
      constructor
      · intro h
        split at h
        · cases h
        · rename_i digits' hd
          cases h
          obtain ⟨hnot, tail, rfl⟩ := ih.mp hd
          exact ⟨by simp [Ne.symm hb, hnot], tail, rfl⟩
      · rintro ⟨hnot, tail, heq⟩
        cases digits with
        | nil =>
          obtain ⟨rfl, -⟩ := List.cons.inj heq
          exact absurd rfl hb
        | cons d digits =>
          obtain ⟨rfl, rfl⟩ := List.cons.inj heq
          rw [ih.mpr ⟨fun h => hnot (List.mem_cons_of_mem _ h), tail, rfl⟩]

/-- No digit is one of the other characters the format uses. -/
theorem ascii_notin_decimal {c : UInt8} (h : isAsciiDigit c = false) (n : Nat) : c ∉ decimal n := by
  intro hc
  have := List.all_eq_true.mp (decimal_all n) c hc
  rw [h] at this
  cases this

theorem head?_decimal_ne {c : UInt8} (h : isAsciiDigit c = false) (n : Nat) : (decimal n).head? ≠ some c := by
  intro hc
  exact ascii_notin_decimal h n (List.mem_of_mem_head? hc)

theorem withoutPlus_eq {s : List UInt8} (h : s.head? ≠ some (ascii '+')) : withoutPlus s = s := if_neg h

theorem asciiDigit_zero : asciiDigit 0 = ascii '0' := rfl

/-- Only zero is written with a zero in front. -/
theorem eq_zero_of_head?_decimal {n : Nat} (h : (decimal n).head? = some (ascii '0')) : n = 0 := by
  have hlen : ¬ 1 < (decimal n).length := fun hlen => decimal_head_ne_zero hlen h
  have hne := decimal_ne_nil n
  have hone : decimal n = [ascii '0'] := by
    match hd : decimal n with
    | [] => exact absurd hd hne
    | [d] =>
      rw [hd] at h
      simpa using h
    | d :: e :: rest => simp [hd] at hlen
  have hparse := parseDigits_decimal n
  rw [hone] at hparse
  exact (Option.some.inj hparse).symm

theorem hasLeadingZero_minus {rest : List UInt8} (hne : rest ≠ []) :
    hasLeadingZero (ascii '-' :: rest) = decide (rest.head? = some (ascii '0')) := by
  have hlen : 1 < (ascii '-' :: rest).length := by
    have := List.length_pos_iff.mpr hne
    simp only [List.length_cons]
    omega
  simp only [hasLeadingZero, List.head?_cons, if_true, List.tail_cons, hlen, decide_true, Bool.true_and]

theorem hasLeadingZero_digits {digits : List UInt8} (h : digits.head? ≠ some (ascii '-')) :
    hasLeadingZero digits = (decide (1 < digits.length) && decide (digits.head? = some (ascii '0'))) := by
  simp only [hasLeadingZero, if_neg h]

/-- Writing an integer and reading the text gives the integer. -/
theorem intOfDigits_showInt (start : Nat) (n : Int64) : intOfDigits start (showInt n.toInt) = .ok n := by
  have hlo := n.le_toInt
  have hhi := n.toInt_lt
  unfold showInt
  by_cases hneg : n.toInt < 0
  · rw [if_pos hneg]
    have hpos : n.toInt.natAbs ≠ 0 := by omega
    have hhead : (decimal n.toInt.natAbs).head? ≠ some (ascii '0') := fun h => hpos (eq_zero_of_head?_decimal h)
    have hzero : ¬ ascii '-' :: decimal n.toInt.natAbs = [ascii '-', ascii '0'] := by
      intro h
      rw [(List.cons.inj h).2] at hhead
      exact hhead rfl
    have hle : n.toInt.natAbs ≤ 2 ^ 63 := by omega
    have hparse : parseI64 (ascii '-' :: decimal n.toInt.natAbs) = some n.toInt := by
      unfold parseI64
      rw [if_pos (by rfl), List.tail_cons, parseDigits_decimal, Option.filter_some, if_pos (decide_eq_true hle)]
      simp only [Option.map_some, Option.some.injEq]
      omega
    unfold intOfDigits
    rw [if_neg (by simp), if_neg (by simp only [List.head?_cons, Option.some.injEq]; decide), if_neg hzero, hasLeadingZero_minus (decimal_ne_nil _),
      if_neg (by simpa using hhead), hparse]
    simp
  · rw [if_neg hneg]
    have hminus : (decimal n.toInt.natAbs).head? ≠ some (ascii '-') := head?_decimal_ne (by decide) _
    have hplus : (decimal n.toInt.natAbs).head? ≠ some (ascii '+') := head?_decimal_ne (by decide) _
    have hlt : n.toInt.natAbs < 2 ^ 63 := by omega
    have hparse : parseI64 (decimal n.toInt.natAbs) = some n.toInt := by
      unfold parseI64
      rw [if_neg hminus, withoutPlus_eq hplus, parseDigits_decimal, Option.filter_some, if_pos (decide_eq_true hlt)]
      simp only [Option.map_some, Option.some.injEq]
      omega
    have hzero : ¬ decimal n.toInt.natAbs = [ascii '-', ascii '0'] := by
      intro h
      rw [h] at hminus
      exact hminus rfl
    unfold intOfDigits
    rw [if_neg (by simpa using decimal_ne_nil _), if_neg hplus, if_neg hzero, hasLeadingZero_digits hminus, if_neg, hparse]
    · simp
    · simp only [Bool.and_eq_true, decide_eq_true_eq, not_and]
      exact fun hlen => decimal_head_ne_zero hlen

theorem showInt_of_parseI64 {digits : List UInt8} {m : Int} (h : parseI64 digits = some m)
    (hplus : digits.head? ≠ some (ascii '+')) (hlead : hasLeadingZero digits = false) (hzero : digits ≠ [ascii '-', ascii '0']) :
    showInt (Int64.ofInt m).toInt = digits := by
  unfold parseI64 at h
  by_cases hminus : digits.head? = some (ascii '-')
  · rw [if_pos hminus] at h
    obtain ⟨rest, rfl⟩ := List.head?_eq_some_iff.mp hminus
    simp only [Option.map_eq_some_iff, Option.filter_eq_some_iff, decide_eq_true_eq, List.tail_cons] at h
    obtain ⟨k, ⟨hk, hle⟩, rfl⟩ := h
    have hrest : rest ≠ [] := by
      rintro rfl
      simp [parseDigits] at hk
    have hhead : rest.head? ≠ some (ascii '0') := by
      rw [hasLeadingZero_minus hrest] at hlead
      simpa using hlead
    have hdec : decimal k = rest := decimal_of_parseDigits hk (fun _ => hhead)
    have hk0 : k ≠ 0 := by
      rintro rfl
      rw [← hdec] at hhead
      exact hhead rfl
    rw [Int64.toInt_ofInt_of_le (by omega) (by omega)]
    unfold showInt
    rw [if_pos (by omega), Int.natAbs_neg, Int.natAbs_natCast, hdec]
  · rw [if_neg hminus, withoutPlus_eq hplus] at h
    simp only [Option.map_eq_some_iff, Option.filter_eq_some_iff, decide_eq_true_eq] at h
    obtain ⟨k, ⟨hk, hlt⟩, rfl⟩ := h
    have hdec : decimal k = digits := by
      refine decimal_of_parseDigits hk (fun hlen => ?_)
      rw [hasLeadingZero_digits hminus] at hlead
      simpa [hlen, asciiDigit_zero] using hlead
    rw [Int64.toInt_ofInt_of_le (by omega) (by omega)]
    unfold showInt
    rw [if_neg (by omega), Int.natAbs_natCast, hdec]

/-- A text that is read as an integer is the one written for it. -/
theorem showInt_of_intOfDigits {start : Nat} {digits : List UInt8} {n : Int64} (h : intOfDigits start digits = .ok n) :
    showInt n.toInt = digits := by
  unfold intOfDigits at h
  split at h
  · cases h
  split at h
  · cases h
  rename_i hplus
  split at h
  · cases h
  rename_i hzero
  split at h
  · cases h
  rename_i hlead
  split at h
  · rename_i m hm
    cases h
    exact showInt_of_parseI64 hm hplus (by simpa using hlead) hzero
  · split at h
    · cases h
    · cases h

theorem lengthOfDigits_decimal (start : Nat) {len : Nat} (h : len < 2 ^ 64) : lengthOfDigits start (decimal len) = .ok len := by
  have hparse : parseU64 (decimal len) = some len := by
    unfold parseU64
    rw [withoutPlus_eq (head?_decimal_ne (by decide) _), parseDigits_decimal, Option.filter_some, if_pos (decide_eq_true h)]
  unfold lengthOfDigits
  rw [if_neg, hparse]
  simp only [Bool.and_eq_true, decide_eq_true_eq, not_and]
  exact fun hlen => decimal_head_ne_zero hlen

/-- A text that is read as a length, and has no plus sign, is the one written for it. -/
theorem decimal_of_lengthOfDigits {start : Nat} {digits : List UInt8} {len : Nat} (h : lengthOfDigits start digits = .ok len)
    (hplus : digits.head? ≠ some (ascii '+')) : decimal len = digits := by
  unfold lengthOfDigits at h
  split at h
  · cases h
  rename_i hlead
  split at h
  · rename_i n hn
    cases h
    unfold parseU64 at hn
    rw [withoutPlus_eq hplus] at hn
    refine decimal_of_parseDigits (Option.filter_eq_some_iff.mp hn).1 (fun hlen => ?_)
    simpa [hlen, asciiDigit_zero] using hlead
  · split at h
    · cases h
    · cases h

/-! ## What was read -/

@[simp] theorem advance_rest (p : Parser) (n : Nat) : (p.advance n).rest = p.rest.drop n := rfl

@[simp] theorem advance_pos (p : Parser) (n : Nat) : (p.advance n).pos = p.pos + n := rfl

theorem peek_ok {p : Parser} {b : UInt8} : p.peek = .ok b ↔ p.rest.head? = some b := by
  unfold peek
  cases p.rest with
  | nil => simp
  | cons c rest => simp

/-- From `p` to `p'` the input is a value that keeps the rules, as it is rendered, and that fits in the room for nesting. -/
structure Read (v : Value) (room : Nat) (p p' : Parser) : Prop where
  rest : p.rest = v.render ++ p'.rest
  pos : p'.pos = p.pos + v.render.length
  unique : v.UniqueKeys
  nesting : v.nesting < room

/-- What is asked of the parser of elements: it returns what it has read. -/
def ReadsElements (element : Parser → Except Error (Decoded × Parser)) (room : Nat) : Prop :=
  ∀ p d p', element p = .ok (d, p') → Read d.value room p p'

theorem parseInt_sound {p p' : Parser} {v : Value} {room : Nat} (hi : p.rest.head? = some (ascii 'i'))
    (h : p.parseInt = .ok (v, p')) : Read v (room + 1) p p' := by
  obtain ⟨bs, hbs⟩ := List.head?_eq_some_iff.mp hi
  unfold parseInt at h
  simp only [advance_rest, advance_pos, hbs, List.drop_succ_cons, List.drop_zero] at h
  split at h
  · cases h
  rename_i digits hd
  split at h
  · cases h
  · rename_i n hn
    cases h
    obtain ⟨-, tail, rfl⟩ := takeUntil_ok.mp hd
    have hshow := showInt_of_intOfDigits hn
    refine ⟨?_, ?_, trivial, Nat.succ_pos room⟩
    · simp [Value.render, renderInt, hshow, hbs]
    · simp only [advance_pos, Value.render, renderInt, hshow, List.length_cons, List.length_append, List.length_nil]
      omega

theorem parseBytes_sound {p p' : Parser} {v : Value} {room : Nat} {b : UInt8} (hb : p.rest.head? = some b)
    (hdigit : isAsciiDigit b = true) (h : p.parseBytes = .ok (v, p')) :
    (∃ bytes, v = .bytes bytes) ∧ Read v (room + 1) p p' := by
  unfold parseBytes at h
  split at h
  · cases h
  rename_i digits hd
  split at h
  · cases h
  rename_i len hlen
  split at h
  · cases h
  · rename_i hmax
    by_cases hshort : (p.advance (digits.length + 1)).rest.length < len
    · dsimp only at h
      rw [if_pos hshort] at h
      cases h
    · simp only [if_neg hshort, Except.ok.injEq, Prod.mk.injEq] at h
      obtain ⟨rfl, rfl⟩ := h
      obtain ⟨hnot, tail, htail⟩ := takeUntil_ok.mp hd
      have hplus : digits.head? ≠ some (ascii '+') := by
        intro hp
        obtain ⟨ds, rfl⟩ := List.head?_eq_some_iff.mp hp
        rw [htail] at hb
        simp only [List.cons_append, List.head?_cons, Option.some.injEq] at hb
        rw [← hb] at hdigit
        exact absurd hdigit (by decide)
      have hdec := decimal_of_lengthOfDigits hlen hplus
      have hdrop : p.rest.drop (digits.length + 1) = tail := by
        rw [htail, List.drop_append]
        simp
      rw [advance_rest, hdrop] at hshort
      have htake : (tail.take len).length = len := by
        rw [List.length_take]
        omega
      refine ⟨⟨_, rfl⟩, ?_, ?_, trivial, Nat.succ_pos room⟩
      · simp only [advance_rest, hdrop, Value.render, renderBytes, htake, hdec]
        rw [htail]
        simp
      · simp only [advance_rest, hdrop, advance_pos, Value.render, renderBytes, htake, hdec, List.length_append, List.length_cons]
        omega

theorem parseItems_sound {element : Parser → Except Error (Decoded × Parser)} {room : Nat} (hel : ReadsElements element room)
    (fuel : Nat) {p p' : Parser} {items : List Value} (h : parseItems element fuel p = .ok (items, p')) :
    p.rest = Value.renderItems items ++ ascii 'e' :: p'.rest ∧ p'.pos = p.pos + (Value.renderItems items).length + 1 ∧
      ∀ v ∈ items, v.UniqueKeys ∧ v.nesting < room := by
  induction fuel generalizing p items with
  | zero => cases h
  | succ fuel ih =>
    unfold parseItems at h
    split at h
    · cases h
    rename_i b hpeek
    split at h
    · rename_i hb
      subst hb
      cases h
      obtain ⟨rest, hrest⟩ := List.head?_eq_some_iff.mp (peek_ok.mp hpeek)
      exact ⟨by simp [Value.renderItems, hrest], by simp [Value.renderItems], by simp⟩
    · split at h
      · cases h
      rename_i d p₁ hd
      split at h
      · cases h
      · rename_i items' p₂ hrest
        cases h
        have hread := hel _ _ _ hd
        obtain ⟨hr, hp, hall⟩ := ih hrest
        refine ⟨?_, ?_, ?_⟩
        · rw [hread.rest, hr]
          simp [Value.renderItems]
        · rw [hp, hread.pos]
          simp only [Value.renderItems, List.length_append]
          omega
        · exact List.forall_mem_cons.mpr ⟨⟨hread.unique, hread.nesting⟩, hall⟩

/-! ### Dictionaries -/

/-- What the loop of `parse_dict` knows of the keys so far: they rise strictly, or the set of them is kept. -/
def KeysSeen (items : List (ByteVec × Value)) (seen : Option (Finset (List UInt8))) : Prop :=
  (Value.keys items).Nodup ∧
    match seen with
    | none => (Value.keys items).Pairwise (· < ·)
    | some set => set = (Value.keys items).toFinset

theorem keys_append (items : List (ByteVec × Value)) (k : ByteVec) (v : Value) :
    Value.keys (items ++ [(k, v)]) = Value.keys items ++ [k.data] := by
  simp [Value.keys]

/-- A key passes exactly when it is new, and what is known of the keys goes on to hold. -/
theorem noteKey_ok {items : List (ByteVec × Value)} {seen : Option (Finset (List UInt8))} {key : ByteVec} {pos : Nat}
    (hs : KeysSeen items seen) :
    (key.data ∉ Value.keys items → ∃ seen', noteKey .strict items seen key.data pos = .ok seen') ∧
      ∀ seen', noteKey .strict items seen key.data pos = .ok seen' →
        key.data ∉ Value.keys items ∧ ∀ v, KeysSeen (items ++ [(key, v)]) seen' := by
  obtain ⟨hnodup, hseen⟩ := hs
  have hset : key.data ∉ Value.keys items → ∀ v,
      KeysSeen (items ++ [(key, v)]) (some (insert key.data (Value.keys items).toFinset)) := by
    intro hnew v
    unfold KeysSeen
    rw [keys_append]
    refine ⟨List.nodup_append.mpr ⟨hnodup, List.nodup_singleton _, ?_⟩, ?_⟩
    · rintro a ha b hb rfl
      rw [List.mem_singleton] at hb
      exact hnew (hb ▸ ha)
    · ext x
      simp
  unfold noteKey
  simp only [Rules.strict]
  cases seen with
  | some set =>
    simp only at hseen
    subst hseen
    simp only [List.mem_toFinset]
    constructor
    · intro hnew
      rw [if_neg hnew]
      exact ⟨_, rfl⟩
    · intro seen' h
      split at h
      · cases h
      · rename_i hnew
        cases h
        exact ⟨hnew, hset hnew⟩
  | none =>
    simp only at hseen ⊢
    cases hlast : items.getLast? with
    | none =>
      rw [List.getLast?_eq_none_iff] at hlast
      subst hlast
      refine ⟨fun _ => ⟨none, rfl⟩, fun seen' h => ?_⟩
      cases h
      exact ⟨by simp [Value.keys], fun v => ⟨by simp [Value.keys], by simp [Value.keys]⟩⟩
    | some last =>
      obtain ⟨prev, w⟩ := last
      simp only [List.mem_toFinset]
      by_cases hle : key.data ≤ prev.data
      · rw [if_pos hle]
        constructor
        · intro hnew
          rw [if_neg hnew]
          exact ⟨_, rfl⟩
        · intro seen' h
          split at h
          · cases h
          · rename_i hnew
            cases h
            exact ⟨hnew, hset hnew⟩
      · rw [if_neg hle]
        refine ⟨fun _ => ⟨none, rfl⟩, fun seen' h => ?_⟩
        cases h
        -- The last key is the largest, so a larger one is new.
        obtain ⟨init, rfl⟩ := List.getLast?_eq_some_iff.mp hlast
        have hbelow : ∀ k ∈ Value.keys (init ++ [(prev, w)]), k < key.data := by
          rw [keys_append] at hseen ⊢
          intro k hk
          rcases List.mem_append.mp hk with hk | hk
          · exact lt_trans ((List.pairwise_append.mp hseen).2.2 k hk prev.data (List.mem_singleton_self _)) (not_le.mp hle)
          · rw [List.mem_singleton] at hk
            exact hk ▸ not_le.mp hle
        have hnew : key.data ∉ Value.keys (init ++ [(prev, w)]) := fun hk => lt_irrefl _ (hbelow _ hk)
        refine ⟨hnew, fun v => ⟨(hset hnew v).1, ?_⟩⟩
        simp only
        rw [keys_append]
        exact List.pairwise_append.mpr ⟨hseen, List.pairwise_singleton _ _, fun a ha b hb => by
          rw [List.mem_singleton] at hb
          exact hb ▸ hbelow a ha⟩

theorem parseEntries_sound {element : Parser → Except Error (Decoded × Parser)} {room : Nat} (hel : ReadsElements element room)
    (fuel : Nat) {p p' : Parser} {items items' : List (ByteVec × Value)} {seen : Option (Finset (List UInt8))}
    (hs : KeysSeen items seen) (h : parseEntries .strict element fuel p items seen = .ok (items', p')) :
    ∃ new, items' = items ++ new ∧ p.rest = Value.renderEntries new ++ ascii 'e' :: p'.rest ∧
      p'.pos = p.pos + (Value.renderEntries new).length + 1 ∧ (Value.keys items').Nodup ∧
      ∀ e ∈ new, e.2.UniqueKeys ∧ e.2.nesting < room := by
  induction fuel generalizing p items seen with
  | zero => cases h
  | succ fuel ih =>
    unfold parseEntries at h
    split at h
    · cases h
    rename_i b hpeek
    split at h
    · rename_i hb
      subst hb
      cases h
      obtain ⟨rest, hrest⟩ := List.head?_eq_some_iff.mp (peek_ok.mp hpeek)
      exact ⟨[], by simp, by simp [Value.renderEntries, hrest], by simp [Value.renderEntries], hs.1, by simp⟩
    · split at h
      · cases h
      rename_i dk p₁ hdk
      split at h
      · rename_i key hkey
        dsimp only at h
        split at h
        · cases h
        rename_i seen' hnote
        split at h
        · cases h
        · rename_i dv p₂ hdv
          obtain ⟨-, hs'⟩ := (noteKey_ok hs).2 _ hnote
          have hrk := hel _ _ _ hdk
          have hrv := hel _ _ _ hdv
          rw [hkey] at hrk
          obtain ⟨new, rfl, hr, hp, hnodup, hall⟩ := ih (hs' dv.value) h
          refine ⟨(key, dv.value) :: new, by simp, ?_, ?_, by simpa using hnodup, ?_⟩
          · rw [hrk.rest, hrv.rest, hr]
            simp [Value.renderEntries, Value.render]
          · rw [hp, hrv.pos, hrk.pos]
            simp only [Value.renderEntries, Value.render, List.length_append]
            omega
          · exact List.forall_mem_cons.mpr ⟨⟨hrv.unique, hrv.nesting⟩, hall⟩
      · cases h

/-- A strict parser that returns has read its value. -/
theorem parseValue_sound (room : Nat) {p p' : Parser} {d : Decoded} (h : parseValue .strict room p = .ok (d, p')) :
    Read d.value room p p' ∧ d.span = (p.pos, p'.pos) := by
  induction room generalizing p d p' with
  | zero => cases h
  | succ room ih =>
    have hel : ReadsElements (parseValue .strict room) room := fun q d q' hq => (ih hq).1
    unfold parseValue at h
    split at h
    · cases h
    rename_i q hnote
    have hq : q.rest = p.rest ∧ q.pos = p.pos := by
      unfold noteValue at hnote
      cases hnote
      exact ⟨rfl, rfl⟩
    split at h
    · cases h
    rename_i v q' hkind
    cases h
    suffices hread : Read v (room + 1) q p' from
      ⟨⟨hq.1 ▸ hread.rest, hq.2 ▸ hread.pos, hread.unique, hread.nesting⟩, by rw [hq.2]⟩
    unfold parseByKind at hkind
    split at hkind
    · cases hkind
    rename_i b hpeek
    rw [peek_ok] at hpeek
    split at hkind
    · rename_i hb
      exact parseInt_sound (hb ▸ hpeek) hkind
    · split at hkind
      · rename_i hb
        subst hb
        obtain ⟨rest, hrest⟩ := List.head?_eq_some_iff.mp hpeek
        unfold parseList at hkind
        dsimp only at hkind
        split at hkind
        · cases hkind
        · rename_i items q'' hitems
          cases hkind
          obtain ⟨hr, hp, hall⟩ := parseItems_sound hel _ hitems
          simp only [advance_rest, advance_pos, hrest, List.drop_succ_cons, List.drop_zero] at hr hp
          refine ⟨?_, ?_, ?_, ?_⟩
          · rw [hrest, hr]
            simp [Value.render]
          · rw [hp]
            simp only [Value.render, List.length_cons, List.length_append, List.length_nil]
            omega
          · exact Value.uniqueKeysItems_iff.mpr (fun v hv => (hall v hv).1)
          · exact Value.nestingItems_lt.mpr (fun v hv => (hall v hv).2)
      · split at hkind
        · rename_i hb
          subst hb
          obtain ⟨rest, hrest⟩ := List.head?_eq_some_iff.mp hpeek
          unfold parseDict at hkind
          dsimp only at hkind
          split at hkind
          · cases hkind
          · rename_i items q'' hitems
            cases hkind
            have hempty : KeysSeen [] none := ⟨by simp [Value.keys], by simp [Value.keys]⟩
            obtain ⟨new, hnew, hr, hp, hnodup, hall⟩ := parseEntries_sound hel _ hempty hitems
            rw [List.nil_append] at hnew
            subst hnew
            simp only [advance_rest, advance_pos, hrest, List.drop_succ_cons, List.drop_zero] at hr hp
            refine ⟨?_, ?_, ?_, ?_⟩
            · rw [hrest, hr]
              simp [Value.render]
            · rw [hp]
              simp only [Value.render, List.length_cons, List.length_append, List.length_nil]
              omega
            · exact ⟨hnodup, Value.uniqueKeysEntries_iff.mpr (fun e he => (hall e he).1)⟩
            · exact Value.nestingEntries_lt.mpr (fun e he => (hall e he).2)
        · split at hkind
          · rename_i hdigit
            exact (parseBytes_sound hpeek hdigit hkind).2
          · cases hkind

/-! ## Reading back -/

/-- A rendering begins with a digit or with the letter of its kind, so not with the end of a container. -/
theorem render_head (v : Value) : ∃ b rest, v.render = b :: rest ∧ b ≠ ascii 'e' := by
  cases v with
  | int n => exact ⟨_, _, rfl, by decide⟩
  | list items => exact ⟨_, _, rfl, by decide⟩
  | dict items => exact ⟨_, _, rfl, by decide⟩
  | bytes b =>
    obtain ⟨d, rest, hd⟩ := List.exists_cons_of_ne_nil (decimal_ne_nil b.data.length)
    refine ⟨d, rest ++ ascii ':' :: b.data, by simp [Value.render, renderBytes, hd], ?_⟩
    rintro rfl
    exact head?_decimal_ne (c := ascii 'e') (by decide) b.data.length (by rw [hd, List.head?_cons])

/-- What is asked of the parser of elements: it reads back every value that keeps the rules and fits in the room. -/
def ReadsBack (element : Parser → Except Error (Decoded × Parser)) (room : Nat) : Prop :=
  ∀ v : Value, v.UniqueKeys → v.nesting < room → ∀ p tail, p.rest = v.render ++ tail →
    ∃ d p', element p = .ok (d, p') ∧ d.value = v ∧ p'.rest = tail

theorem parseInt_complete {p : Parser} {n : Int64} {tail : List UInt8} (hp : p.rest = renderInt n ++ tail) :
    ∃ p', p.parseInt = .ok (.int n, p') ∧ p'.rest = tail := by
  have hdrop : (p.advance 1).rest = showInt n.toInt ++ ascii 'e' :: tail := by
    rw [advance_rest, hp]
    simp [renderInt]
  have hnot : ascii 'e' ∉ showInt n.toInt := by
    unfold showInt
    split
    · rw [List.mem_cons, not_or]
      exact ⟨by decide, ascii_notin_decimal (by decide) _⟩
    · exact ascii_notin_decimal (by decide) _
  refine ⟨(p.advance 1).advance ((showInt n.toInt).length + 1), ?_, ?_⟩
  · unfold parseInt
    dsimp only
    rw [takeUntil_ok.mpr ⟨hnot, tail, hdrop⟩]
    dsimp only
    rw [intOfDigits_showInt]
  · rw [advance_rest, hdrop, List.drop_append]
    simp

theorem parseBytes_complete {p : Parser} {b : ByteVec} {tail : List UInt8} (hp : p.rest = renderBytes b.data ++ tail) :
    ∃ p', p.parseBytes = .ok (.bytes b, p') ∧ p'.rest = tail := by
  have hlen := b.length_le
  have hrest : p.rest = decimal b.data.length ++ ascii ':' :: (b.data ++ tail) := by
    rw [hp]
    simp [renderBytes]
  have hdrop : (p.advance ((decimal b.data.length).length + 1)).rest = b.data ++ tail := by
    rw [advance_rest, hrest, List.drop_append]
    simp
  have hmax : b.data.length < 2 ^ 64 := lt_of_le_of_lt hlen (by decide)
  refine ⟨(p.advance ((decimal b.data.length).length + 1)).advance b.data.length, ?_, ?_⟩
  · unfold parseBytes
    rw [takeUntil_ok.mpr ⟨ascii_notin_decimal (by decide) _, _, hrest⟩]
    dsimp only
    rw [lengthOfDigits_decimal _ hmax]
    dsimp only
    rw [dif_neg (not_lt.mpr hlen), if_neg (by rw [hdrop, List.length_append]; omega)]
    simp only [hdrop, List.take_left']
  · rw [advance_rest, hdrop, List.drop_left']
    rfl

theorem parseItems_complete {element : Parser → Except Error (Decoded × Parser)} {room : Nat} (hel : ReadsBack element room)
    {items : List Value} (hall : ∀ v ∈ items, v.UniqueKeys ∧ v.nesting < room) {fuel : Nat} (hfuel : items.length < fuel)
    {p : Parser} {tail : List UInt8} (hp : p.rest = Value.renderItems items ++ ascii 'e' :: tail) :
    ∃ p', parseItems element fuel p = .ok (items, p') ∧ p'.rest = tail := by
  induction items generalizing fuel p with
  | nil =>
    obtain ⟨fuel, rfl⟩ := Nat.exists_eq_succ_of_ne_zero (Nat.ne_of_gt hfuel)
    have hpeek : p.peek = .ok (ascii 'e') := peek_ok.mpr (by rw [hp]; rfl)
    refine ⟨p.advance 1, ?_, by rw [advance_rest, hp]; rfl⟩
    unfold parseItems
    rw [hpeek]
    rfl
  | cons v items ih =>
    obtain ⟨fuel, rfl⟩ := Nat.exists_eq_succ_of_ne_zero (Nat.ne_of_gt (Nat.zero_lt_of_lt hfuel))
    obtain ⟨hv, hitems⟩ := List.forall_mem_cons.mp hall
    have hsplit : p.rest = v.render ++ (Value.renderItems items ++ ascii 'e' :: tail) := by
      rw [hp]
      simp [Value.renderItems]
    obtain ⟨b, rest, hb, hne⟩ := render_head v
    have hpeek : p.peek = .ok b := peek_ok.mpr (by rw [hsplit, hb]; rfl)
    obtain ⟨d, p₁, hd, rfl, hp₁⟩ := hel v hv.1 hv.2 p _ hsplit
    obtain ⟨p₂, hrest, hp₂⟩ := ih hitems (by simpa using hfuel) hp₁
    refine ⟨p₂, ?_, hp₂⟩
    unfold parseItems
    rw [hpeek]
    dsimp only
    rw [if_neg hne, hd]
    dsimp only
    rw [hrest]

theorem parseEntries_complete {element : Parser → Except Error (Decoded × Parser)} {room : Nat} (hel : ReadsBack element room)
    {items new : List (ByteVec × Value)} {seen : Option (Finset (List UInt8))} (hs : KeysSeen items seen)
    (hnodup : (Value.keys (items ++ new)).Nodup) (hall : ∀ e ∈ new, e.2.UniqueKeys ∧ e.2.nesting < room) {fuel : Nat}
    (hfuel : new.length < fuel) {p : Parser} {tail : List UInt8} (hp : p.rest = Value.renderEntries new ++ ascii 'e' :: tail) :
    ∃ p', parseEntries .strict element fuel p items seen = .ok (items ++ new, p') ∧ p'.rest = tail := by
  induction new generalizing fuel p items seen with
  | nil =>
    obtain ⟨fuel, rfl⟩ := Nat.exists_eq_succ_of_ne_zero (Nat.ne_of_gt hfuel)
    have hpeek : p.peek = .ok (ascii 'e') := peek_ok.mpr (by rw [hp]; rfl)
    refine ⟨p.advance 1, ?_, by rw [advance_rest, hp]; rfl⟩
    unfold parseEntries
    rw [hpeek, List.append_nil]
    rfl
  | cons e new ih =>
    obtain ⟨k, v⟩ := e
    obtain ⟨fuel, rfl⟩ := Nat.exists_eq_succ_of_ne_zero (Nat.ne_of_gt (Nat.zero_lt_of_lt hfuel))
    obtain ⟨hv, hentries⟩ := List.forall_mem_cons.mp hall
    have hsplit : p.rest = (Value.bytes k).render ++ (v.render ++ (Value.renderEntries new ++ ascii 'e' :: tail)) := by
      rw [hp]
      simp [Value.renderEntries, Value.render]
    obtain ⟨b, rest, hb, hne⟩ := render_head (.bytes k)
    have hpeek : p.peek = .ok b := peek_ok.mpr (by rw [hsplit, hb]; rfl)
    have hroom : 0 < room := Nat.zero_lt_of_lt hv.2
    obtain ⟨dk, p₁, hdk, hkey, hp₁⟩ := hel (.bytes k) trivial hroom p _ hsplit
    obtain ⟨dv, p₂, hdv, hval, hp₂⟩ := hel v hv.1 hv.2 p₁ _ hp₁
    have hassoc : items ++ (k, v) :: new = (items ++ [(k, v)]) ++ new := by simp
    have hnew : k.data ∉ Value.keys items := by
      intro hk
      have hmap : Value.keys (items ++ (k, v) :: new) = Value.keys items ++ k.data :: Value.keys new := by simp [Value.keys]
      rw [hmap] at hnodup
      exact (List.nodup_append.mp hnodup).2.2 _ hk _ List.mem_cons_self rfl
    obtain ⟨hpass, hkeep⟩ := @noteKey_ok items seen k p.pos hs
    obtain ⟨seen', hnote⟩ := hpass hnew
    obtain ⟨p₃, hrest, hp₃⟩ := ih ((hkeep _ hnote).2 v) (hassoc ▸ hnodup) hentries (by simpa using hfuel) hp₂
    refine ⟨p₃, ?_, hp₃⟩
    unfold parseEntries
    rw [hpeek]
    dsimp only
    rw [if_neg hne, hdk]
    dsimp only
    rw [hkey]
    dsimp only
    rw [hnote]
    dsimp only
    rw [hdv]
    dsimp only
    rw [hval, hrest, hassoc]

theorem length_le_renderItems (items : List Value) : items.length ≤ (Value.renderItems items).length := by
  induction items with
  | nil => simp
  | cons v items ih =>
    obtain ⟨b, rest, hb, -⟩ := render_head v
    simp only [Value.renderItems, List.length_cons, List.length_append, hb]
    omega

theorem length_le_renderEntries (items : List (ByteVec × Value)) : items.length ≤ (Value.renderEntries items).length := by
  induction items with
  | nil => simp
  | cons e items ih =>
    obtain ⟨b, rest, hb, -⟩ := render_head e.2
    simp only [Value.renderEntries, List.length_cons, List.length_append, hb]
    omega

/-- A strict parser reads back every value that keeps the rules and fits in its room. -/
theorem parseValue_complete (room : Nat) : ReadsBack (parseValue .strict room) room := by
  induction room with
  | zero => exact fun v _ hn => absurd hn (Nat.not_lt_zero _)
  | succ room ih =>
    intro v hu hn p tail hp
    obtain ⟨q, hnote, hq⟩ : ∃ q, noteValue .strict p = .ok q ∧ q.rest = v.render ++ tail := ⟨_, rfl, hp⟩
    suffices h : ∃ p', parseByKind .strict (parseValue .strict room) q = .ok (v, p') ∧ p'.rest = tail by
      obtain ⟨p', hkind, hp'⟩ := h
      refine ⟨{ value := v, span := (q.pos, p'.pos) }, p', ?_, rfl, hp'⟩
      unfold parseValue
      rw [hnote]
      dsimp only
      rw [hkind]
    unfold parseByKind
    cases v with
    | int n =>
      have hpeek : q.peek = .ok (ascii 'i') := peek_ok.mpr (by rw [hq]; rfl)
      rw [hpeek]
      dsimp only
      rw [if_pos rfl]
      exact parseInt_complete hq
    | bytes b =>
      obtain ⟨d, rest, hd⟩ := List.exists_cons_of_ne_nil (decimal_ne_nil b.data.length)
      have hdigit : isAsciiDigit d = true := List.all_eq_true.mp (decimal_all b.data.length) d (by rw [hd]; exact List.mem_cons_self)
      have hne : ∀ c : UInt8, isAsciiDigit c = false → d ≠ c := by
        rintro c hc rfl
        rw [hdigit] at hc
        cases hc
      have hpeek : q.peek = .ok d := peek_ok.mpr (by rw [hq]; simp [Value.render, renderBytes, hd])
      rw [hpeek]
      dsimp only
      rw [if_neg (hne _ (by decide)), if_neg (hne _ (by decide)), if_neg (hne _ (by decide)), if_pos hdigit]
      exact parseBytes_complete hq
    | list items =>
      have hpeek : q.peek = .ok (ascii 'l') := peek_ok.mpr (by rw [hq]; rfl)
      rw [hpeek]
      dsimp only
      rw [if_neg (by decide), if_pos rfl]
      have hrest : (q.advance 1).rest = Value.renderItems items ++ ascii 'e' :: tail := by
        rw [advance_rest, hq]
        simp [Value.render]
      have hall : ∀ v ∈ items, v.UniqueKeys ∧ v.nesting < room :=
        fun v hv => ⟨Value.uniqueKeysItems_iff.mp hu v hv, Value.nestingItems_lt.mp hn v hv⟩
      have hfuel : items.length < (q.advance 1).rest.length + 1 := by
        have := length_le_renderItems items
        rw [hrest, List.length_append]
        omega
      obtain ⟨p', hp', htail⟩ := parseItems_complete ih hall hfuel hrest
      refine ⟨p', ?_, htail⟩
      unfold parseList
      dsimp only
      rw [hp']
    | dict items =>
      have hpeek : q.peek = .ok (ascii 'd') := peek_ok.mpr (by rw [hq]; rfl)
      rw [hpeek]
      dsimp only
      rw [if_neg (by decide), if_neg (by decide), if_pos rfl]
      have hrest : (q.advance 1).rest = Value.renderEntries items ++ ascii 'e' :: tail := by
        rw [advance_rest, hq]
        simp [Value.render]
      have hall : ∀ e ∈ items, e.2.UniqueKeys ∧ e.2.nesting < room :=
        fun e he => ⟨Value.uniqueKeysEntries_iff.mp hu.2 e he, Value.nestingEntries_lt.mp hn e he⟩
      have hfuel : items.length < (q.advance 1).rest.length + 1 := by
        have := length_le_renderEntries items
        rw [hrest, List.length_append]
        omega
      have hempty : KeysSeen [] none := ⟨by simp [Value.keys], by simp [Value.keys]⟩
      obtain ⟨p', hp', htail⟩ := parseEntries_complete ih hempty hu.1 hall hfuel hrest
      refine ⟨p', ?_, htail⟩
      unfold parseDict
      dsimp only
      rw [hp', List.nil_append]

end Parser

/-! ## Whole inputs -/

/-- What `decode_all` accepts, and as what: the renderings of the values that keep the rules. -/
theorem decodeAll_ok {x : List UInt8} {v : Value} :
    decodeAll x = .ok v ↔ x = v.render ∧ v.UniqueKeys ∧ v.nesting ≤ maxStrictDepth := by
  constructor
  · intro h
    unfold decodeAll decode Parser.run at h
    split at h
    · cases h
    rename_i d hd
    split at hd
    · cases hd
    rename_i d' p' hrun
    cases hd
    split at h
    · cases h
    · rename_i hspan
      cases h
      obtain ⟨hread, hsp⟩ := Parser.parseValue_sound _ hrun
      have hrest := hread.rest
      have hpos := hread.pos
      simp only at hrest hpos
      rw [hsp, Decidable.not_not] at hspan
      simp only at hspan
      have hlen := congrArg List.length hrest
      rw [List.length_append] at hlen
      have hnil : p'.rest = [] := List.eq_nil_of_length_eq_zero (by omega)
      rw [hnil, List.append_nil] at hrest
      exact ⟨hrest, hread.unique, Nat.lt_succ_iff.mp hread.nesting⟩
  · rintro ⟨rfl, hu, hn⟩
    obtain ⟨d, p', hrun, rfl, hrest⟩ := Parser.parseValue_complete (Rules.strict.maxDepth + 1) v hu (Nat.lt_succ_of_le hn)
      { rest := v.render, pos := 0, values := 0 } [] (by simp)
    obtain ⟨hread, hspan⟩ := Parser.parseValue_sound _ hrun
    have hpos := hread.pos
    unfold decodeAll decode Parser.run
    rw [hrun]
    simp [hspan, hpos]

/-- Two values with unique keys and one rendering are equal. -/
theorem render_injective {v w : Value} (hv : v.UniqueKeys) (hw : w.UniqueKeys) (h : v.render = w.render) : v = w := by
  have hread := Parser.parseValue_complete (max v.nesting w.nesting + 1)
  obtain ⟨d, p, hd, hdv, -⟩ := hread v hv (by omega) { rest := v.render, pos := 0, values := 0 } [] (by simp)
  obtain ⟨d', p', hd', hdw, -⟩ := hread w hw (by omega) { rest := v.render, pos := 0, values := 0 } [] (by simp [h])
  rw [hd] at hd'
  cases hd'
  rw [← hdv, hdw]

end Bencode

end Risuko

/-!
## Bencode from outside

A parser for input from outside bounds the input, the depth and the number of values, and does not look at the order of keys. It reads
back a dictionary of byte strings that keeps to its bounds (`decodeAllExternal_flat`).
-/

namespace Risuko

namespace Bencode

/-- The entries of a dictionary of byte strings. -/
def flat (items : List (ByteVec × ByteVec)) : List (ByteVec × Value) := items.map fun e => (e.1, .bytes e.2)

namespace Parser

variable {limits : DecodeLimits}

theorem parseBytes_values {p p' : Parser} {v : Value} (h : p.parseBytes = .ok (v, p')) : p'.values = p.values := by
  unfold parseBytes at h
  split at h
  · cases h
  split at h
  · cases h
  split at h
  · cases h
  dsimp only at h
  split at h
  · cases h
  · cases h
    rfl

/-- A byte string is read back while there is room for one more value. -/
theorem parseValue_bytes {room : Nat} {p : Parser} {b : ByteVec} {tail : List UInt8} (hp : p.rest = renderBytes b.data ++ tail)
    (hv : p.values < limits.maxValues) :
    ∃ d p', parseValue (.external limits) (room + 1) p = .ok (d, p') ∧ d.value = .bytes b ∧ p'.rest = tail ∧
      p'.pos = p.pos + (renderBytes b.data).length ∧ p'.values ≤ p.values + 1 := by
  obtain ⟨q, hnote, hrest, hpos, hvalues⟩ : ∃ q, noteValue (.external limits) p = .ok q ∧ q.rest = renderBytes b.data ++ tail ∧
      q.pos = p.pos ∧ q.values ≤ p.values + 1 :=
    ⟨{ p with values := min (p.values + 1) (2 ^ 64 - 1) }, if_neg (not_le.mpr hv), hp, rfl, Nat.min_le_left _ _⟩
  obtain ⟨digit, digits, hd⟩ := List.exists_cons_of_ne_nil (decimal_ne_nil b.data.length)
  have hdigit : isAsciiDigit digit = true := List.all_eq_true.mp (decimal_all b.data.length) digit (by rw [hd]; exact List.mem_cons_self)
  have hne : ∀ c : UInt8, isAsciiDigit c = false → digit ≠ c := by
    rintro c hc rfl
    rw [hdigit] at hc
    cases hc
  have hhead : q.rest.head? = some digit := by
    rw [hrest]
    simp [renderBytes, hd]
  obtain ⟨p', hparse, htail⟩ := parseBytes_complete hrest
  have hread : Read (.bytes b) (room + 1) q p' := (parseBytes_sound hhead hdigit hparse).2
  refine ⟨{ value := .bytes b, span := (q.pos, p'.pos) }, p', ?_, rfl, htail, ?_, ?_⟩
  · unfold parseValue
    rw [hnote]
    dsimp only
    unfold parseByKind
    rw [peek_ok.mpr hhead]
    dsimp only
    rw [if_neg (hne _ (by decide)), if_neg (hne _ (by decide)), if_neg (hne _ (by decide)), if_pos hdigit, hparse]
  · rw [hread.pos, hpos]
    rfl
  · rw [parseBytes_values hparse]
    exact hvalues

theorem parseEntries_flat {room : Nat} (items : List (ByteVec × ByteVec)) {acc : List (ByteVec × Value)} {fuel : Nat}
    (hfuel : items.length < fuel) {p : Parser} {tail : List UInt8} (hp : p.rest = Value.renderEntries (flat items) ++ ascii 'e' :: tail)
    (hv : p.values + 2 * items.length ≤ limits.maxValues) :
    ∃ p', parseEntries (.external limits) (parseValue (.external limits) (room + 1)) fuel p acc none = .ok (acc ++ flat items, p') ∧
      p'.pos = p.pos + (Value.renderEntries (flat items)).length + 1 := by
  induction items generalizing fuel p acc with
  | nil =>
    obtain ⟨fuel, rfl⟩ := Nat.exists_eq_succ_of_ne_zero (Nat.ne_of_gt hfuel)
    have hpeek : p.peek = .ok (ascii 'e') := peek_ok.mpr (by rw [hp]; rfl)
    refine ⟨p.advance 1, ?_, rfl⟩
    unfold parseEntries
    rw [hpeek, flat, List.map_nil, List.append_nil]
    rfl
  | cons e items ih =>
    obtain ⟨k, b⟩ := e
    obtain ⟨fuel, rfl⟩ := Nat.exists_eq_succ_of_ne_zero (Nat.ne_of_gt (Nat.zero_lt_of_lt hfuel))
    have hsplit : p.rest = renderBytes k.data ++ (renderBytes b.data ++ (Value.renderEntries (flat items) ++ ascii 'e' :: tail)) := by
      rw [hp]
      simp [flat, Value.renderEntries, Value.render]
    rw [List.length_cons] at hv hfuel
    obtain ⟨first, rest, hfirst, hne⟩ := render_head (.bytes k)
    have hpeek : p.peek = .ok first := by
      rw [Value.render] at hfirst
      exact peek_ok.mpr (by rw [hsplit, hfirst]; rfl)
    obtain ⟨dk, p₁, hk, hkey, hrest₁, hpos₁, hvalues₁⟩ := @parseValue_bytes limits room p k _ hsplit (by omega)
    obtain ⟨db, p₂, hb, hval, hrest₂, hpos₂, hvalues₂⟩ := @parseValue_bytes limits room p₁ b _ hrest₁ (by omega)
    obtain ⟨p₃, hloop, hpos₃⟩ := @ih (acc ++ [(k, .bytes b)]) fuel (by omega) p₂ hrest₂ (by omega)
    refine ⟨p₃, ?_, ?_⟩
    · unfold parseEntries
      rw [hpeek]
      dsimp only
      rw [if_neg hne, hk]
      dsimp only
      rw [hkey]
      dsimp only [noteKey, Rules.external]
      rw [← Rules.external, hb]
      dsimp only
      rw [hval, hloop, List.append_assoc]
      rfl
    · rw [hpos₃, hpos₂, hpos₁]
      simp only [flat, List.map_cons, Value.renderEntries, Value.render, List.length_append]
      omega

end Parser

/-- A dictionary of byte strings is read back from its rendering, within the bounds. -/
theorem decodeAllExternal_flat {limits : DecodeLimits} (items : List (ByteVec × ByteVec))
    (hlen : (Value.dict (flat items)).render.length ≤ limits.maxInputLen) (hdepth : 0 < limits.maxDepth)
    (hvalues : 2 * items.length < limits.maxValues) :
    decodeAllExternal (Value.dict (flat items)).render limits = .ok (.dict (flat items)) := by
  obtain ⟨room, hroom⟩ := Nat.exists_eq_succ_of_ne_zero hdepth.ne'
  let p : Parser := { rest := (Value.dict (flat items)).render, pos := 0, values := min 1 (2 ^ 64 - 1) }
  have hrest : (p.advance 1).rest = Value.renderEntries (flat items) ++ ascii 'e' :: [] := rfl
  have hfuel : items.length < (p.advance 1).rest.length + 1 := by
    have hle := Parser.length_le_renderEntries (flat items)
    rw [flat, List.length_map, ← flat] at hle
    rw [hrest, List.length_append]
    omega
  obtain ⟨p', hloop, hpos⟩ := @Parser.parseEntries_flat limits room items [] _ hfuel _ _ hrest
    (show 1 + 2 * items.length ≤ limits.maxValues by omega)
  have hend : p'.pos = (Value.dict (flat items)).render.length := by
    rw [hpos, Value.render, List.length_cons, List.length_append, List.length_singleton]
    exact Nat.add_right_comm 1 _ 1 |>.trans (Nat.add_comm _ _)
  have hrun : Parser.run (.external limits) (Value.dict (flat items)).render =
      .ok { value := .dict (flat items), span := (0, p'.pos) } := by
    have hnote : Parser.noteValue (.external limits) { rest := (Value.dict (flat items)).render, pos := 0, values := 0 } = .ok p :=
      if_neg (by show ¬ limits.maxValues ≤ 0; omega)
    have hkind : Parser.parseByKind (.external limits) (Parser.parseValue (.external limits) (room + 1)) p =
        .ok (.dict (flat items), p') := by
      have hpeek : p.peek = .ok (ascii 'd') := Parser.peek_ok.mpr rfl
      unfold Parser.parseByKind
      rw [hpeek]
      dsimp only
      rw [if_neg (by decide), if_neg (by decide), if_pos rfl]
      unfold Parser.parseDict
      dsimp only
      rw [hloop]
      rfl
    have hdeep : (Rules.external limits).maxDepth + 1 = room + 1 + 1 := congrArg (· + 1) hroom
    unfold Parser.run
    rw [hdeep, Parser.parseValue, hnote]
    dsimp only
    rw [hkind]
  unfold decodeAllExternal decodeExternal
  rw [if_neg (not_lt.mpr hlen), hrun]
  dsimp only
  rw [hend, List.drop_length]
  rfl

end Bencode

end Risuko
