import Mathlib.Tactic

/-!
# Incremental decoding

A decoder looks at the front of a buffer and takes one frame off it, asks for more, or fails. It is `Framed` when more bytes behind
a frame, or behind a failure, make no difference. A reader puts what arrives behind what it holds and decodes while it can. For a
framed decoder its outcome depends on the bytes that arrived and not on how they were cut (`feedAll_flatten`).
-/

namespace Risuko

variable {α μ ε : Type*}

/-- A decoder takes frames off the front, and does not look behind them. -/
structure Framed (step : List α → Except ε (Option (μ × List α))) : Prop where
  shrinks : ∀ {b m r}, step b = .ok (some (m, r)) → r.length < b.length
  frame_append : ∀ {b m r} (x : List α), step b = .ok (some (m, r)) → step (b ++ x) = .ok (some (m, r ++ x))
  error_append : ∀ {b e} (x : List α), step b = .error e → step (b ++ x) = .error e

/-- What a reader has: the messages it decoded, and the bytes it holds or the failure it stopped at. -/
structure Reader (α μ ε : Type*) where
  messages : List μ
  status : Except ε (List α)

namespace Reader

/-- A reader that has seen nothing. -/
def start : Reader α μ ε := ⟨[], .ok []⟩

/-- Decode while there is a frame. Each turn takes a byte or more, and the fuel bounds the turns. -/
def drain (step : List α → Except ε (Option (μ × List α))) : Nat → List α → Reader α μ ε
  | 0, b => ⟨[], .ok b⟩
  | fuel + 1, b =>
    match step b with
    | .error e => ⟨[], .error e⟩
    | .ok none => ⟨[], .ok b⟩
    | .ok (some (m, r)) =>
      let d := drain step fuel r
      ⟨m :: d.messages, d.status⟩

/-- Decode a whole buffer. -/
def decodeBuffer (step : List α → Except ε (Option (μ × List α))) (b : List α) : Reader α μ ε := drain step (b.length + 1) b

/-- Bytes arrive. A reader that failed reads no more. -/
def feed (step : List α → Except ε (Option (μ × List α))) (r : Reader α μ ε) (chunk : List α) : Reader α μ ε :=
  match r.status with
  | .error _ => r
  | .ok b =>
    let d := decodeBuffer step (b ++ chunk)
    ⟨r.messages ++ d.messages, d.status⟩

/-- Chunks arrive one after the other. -/
def feedAll (step : List α → Except ε (Option (μ × List α))) (chunks : List (List α)) : Reader α μ ε :=
  chunks.foldl (feed step) start

variable {step : List α → Except ε (Option (μ × List α))}

theorem drain_succ (fuel : Nat) (b : List α) :
    drain step (fuel + 1) b =
      match step b with
      | .error e => ⟨[], .error e⟩
      | .ok none => ⟨[], .ok b⟩
      | .ok (some (m, r)) => ⟨m :: (drain step fuel r).messages, (drain step fuel r).status⟩ := rfl

/-- Fuel above the length of the buffer makes no difference. -/
theorem drain_eq_decodeBuffer (h : Framed step) {fuel : Nat} {b : List α} (hf : b.length < fuel) :
    drain step fuel b = decodeBuffer step b := by
  unfold decodeBuffer
  suffices ∀ n fuel fuel' : Nat, ∀ b : List α, b.length ≤ n → b.length < fuel → b.length < fuel' →
      drain step fuel b = drain step fuel' b from this b.length _ _ b le_rfl hf (Nat.lt_succ_self _)
  intro n
  induction n with
  | zero =>
    intro fuel fuel' b hn hf hf'
    obtain ⟨k, rfl⟩ := Nat.exists_eq_succ_of_ne_zero (Nat.ne_of_gt (Nat.zero_lt_of_lt hf))
    obtain ⟨k', rfl⟩ := Nat.exists_eq_succ_of_ne_zero (Nat.ne_of_gt (Nat.zero_lt_of_lt hf'))
    rw [drain_succ, drain_succ]
    cases hs : step b with
    | error e => rfl
    | ok o =>
      cases o with
      | none => rfl
      | some p => exact absurd (h.shrinks (m := p.1) (r := p.2) hs) (by omega)
  | succ n ih =>
    intro fuel fuel' b hn hf hf'
    obtain ⟨k, rfl⟩ := Nat.exists_eq_succ_of_ne_zero (Nat.ne_of_gt (Nat.zero_lt_of_lt hf))
    obtain ⟨k', rfl⟩ := Nat.exists_eq_succ_of_ne_zero (Nat.ne_of_gt (Nat.zero_lt_of_lt hf'))
    rw [drain_succ, drain_succ]
    cases hs : step b with
    | error e => rfl
    | ok o =>
      cases o with
      | none => rfl
      | some p =>
        have hlt := h.shrinks (m := p.1) (r := p.2) hs
        simp only
        rw [ih k k' p.2 (by omega) (by omega) (by omega)]

/-! ## One step -/

theorem decodeBuffer_of_error {b : List α} {e : ε} (hs : step b = .error e) : decodeBuffer step b = ⟨[], .error e⟩ := by
  rw [decodeBuffer, drain_succ, hs]

theorem decodeBuffer_of_none {b : List α} (hs : step b = .ok none) : decodeBuffer step b = ⟨[], .ok b⟩ := by
  rw [decodeBuffer, drain_succ, hs]

theorem decodeBuffer_of_some (h : Framed step) {b r : List α} {m : μ} (hs : step b = .ok (some (m, r))) :
    decodeBuffer step b = ⟨m :: (decodeBuffer step r).messages, (decodeBuffer step r).status⟩ := by
  rw [← drain_eq_decodeBuffer h (h.shrinks hs)]
  rw [decodeBuffer, drain_succ, hs]

/-! ## Buffers that grow -/

/-- More bytes behind a buffer: what it decodes to comes first, and the rest goes on with them. -/
theorem decodeBuffer_append (h : Framed step) (b x : List α) :
    decodeBuffer step (b ++ x) = feed step (decodeBuffer step b) x := by
  induction hn : b.length using Nat.strongRecOn generalizing b with
  | _ n ih =>
    cases hs : step b with
    | error e =>
      rw [decodeBuffer_of_error hs, decodeBuffer_of_error (h.error_append x hs)]
      rfl
    | ok o =>
      cases o with
      | none =>
        rw [decodeBuffer_of_none hs]
        rfl
      | some p =>
        obtain ⟨m, r⟩ := p
        rw [decodeBuffer_of_some h hs, decodeBuffer_of_some h (h.frame_append x hs), ih r.length (hn ▸ h.shrinks hs) r rfl]
        unfold feed
        cases hd : (decodeBuffer step r).status with
        | error e => simp [hd]
        | ok b' => simp

/-- The outcome is that of decoding everything at once, however it was cut. -/
theorem feedAll_flatten (h : Framed step) (hnil : step [] = .ok none) (chunks : List (List α)) :
    feedAll step chunks = decodeBuffer step chunks.flatten := by
  induction chunks using List.reverseRecOn with
  | nil => exact (decodeBuffer_of_none hnil).symm
  | append_singleton chunks chunk ih =>
    unfold feedAll at ih ⊢
    rw [List.foldl_append, ih, List.flatten_append, List.flatten_singleton, decodeBuffer_append h]
    rfl

/-- Frames one behind the other decode to their messages, and what is behind them goes on. -/
theorem decodeBuffer_frames (h : Framed step) {encode : μ → List α} {ms : List μ}
    (hms : ∀ m ∈ ms, ∀ tail, step (encode m ++ tail) = .ok (some (m, tail))) (tail : List α) :
    decodeBuffer step ((ms.map encode).flatten ++ tail) =
      ⟨ms ++ (decodeBuffer step tail).messages, (decodeBuffer step tail).status⟩ := by
  induction ms with
  | nil => rfl
  | cons m ms ih =>
    obtain ⟨hm, hms⟩ := List.forall_mem_cons.mp hms
    rw [List.map_cons, List.flatten_cons, List.append_assoc, decodeBuffer_of_some h (hm _), ih hms]
    rfl

end Reader

end Risuko
