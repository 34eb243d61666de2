import Risuko.Engine.Session

/-!
# What the session file holds

A step is one of a writer, or one of the moves of a call (`step_cases`). A call that holds the gate works on a revision that is not behind
the one in the file, and the revision in `saved_rev` is not ahead of it (`Sound`); both are kept as long as no two lists of the run share a
hash without sharing their bytes.
-/

namespace Risuko

namespace Engine

universe u v

variable {T : Type u} {H : Type v} [Persisted T H]

/-- A call whose write is done and not recorded yet. -/
def SavePhase.unrecorded : SavePhase → Bool
  | .persisted _ _ | .written _ => true
  | _ => false

def SavePhase.unremembered : SavePhase → Bool
  | .persisted _ _ => true
  | _ => false

theorem SavePhase.holdsGate_of_unrecorded {p : SavePhase} (h : p.unrecorded = true) : p.holdsGate = true := by
  cases p with
  | persisted | written => rfl
  | started | looking | waiting | gated | encoded | differing | leaving | returned => cases h

theorem SavePhase.unrecorded_of_unremembered {p : SavePhase} (h : p.unremembered = true) : p.unrecorded = true := by
  cases p with
  | persisted => rfl
  | started | looking | waiting | gated | encoded | differing | written | leaving | returned => cases h

namespace SessionStore

variable {s s' t : SessionStore T H} {i : ℕ} {c : SaveCall} {a : Action T} {p : SavePhase}

/-! ## The moves of a call -/

/-- A move of call `i`: its phase after it, and the state but for that. -/
inductive SaveMove (s : SessionStore T H) (i : ℕ) (c : SaveCall) : SavePhase → SessionStore T H → Prop where
  | loaded (hphase : c.phase = .started) : SaveMove s i c (.looking s.rev) s
  | saved (rev : ℕ) (hphase : c.phase = .looking rev) (hsaved : s.savedRev = some rev) : SaveMove s i c (.returned (.ok ())) s
  | unsaved (rev : ℕ) (hphase : c.phase = .looking rev) (hsaved : s.savedRev ≠ some rev) : SaveMove s i c .waiting s
  | entered (hphase : c.phase = .waiting) (hgate : s.gate = none) : SaveMove s i c .gated { s with gate := some i }
  | encoded (hphase : c.phase = .gated) (hlock : s.lock = .free) (data : List UInt8) (hdata : encode s.inner = .ok data) :
      SaveMove s i c (.encoded s.rev data) s
  | refused (hholds : c.phase.holdsGate = true) (hrecorded : c.phase.unrecorded = false) (e : String) :
      SaveMove s i c (.leaving (.error e)) s
  | same (rev : ℕ) (data : List UInt8) (hphase : c.phase = .encoded rev data)
      (hhash : s.lastHash = some (Persisted.hash (T := T) data)) :
      SaveMove s i c (.written rev) { s with current := some rev }
  | differs (rev : ℕ) (data : List UInt8) (hphase : c.phase = .encoded rev data) : SaveMove s i c (.differing rev data) s
  | persisted (rev : ℕ) (data : List UInt8) (hphase : c.phase = .differing rev data) :
      SaveMove s i c (.persisted rev data)
        { s with file := some data, current := some rev, writes := s.writes ++ [rev], failed := false }
  | failed (hholds : c.phase.holdsGate = true) (hrecorded : c.phase.unrecorded = false) (e : String) :
      SaveMove s i c (.leaving (.error e)) { s with failed := true }
  | remembered (rev : ℕ) (data : List UInt8) (hphase : c.phase = .persisted rev data) :
      SaveMove s i c (.written rev) { s with lastHash := some (Persisted.hash (T := T) data) }
  | stored (rev : ℕ) (hphase : c.phase = .written rev) : SaveMove s i c (.leaving (.ok ())) { s with savedRev := some rev }
  | left (r : Except String Unit) (hphase : c.phase = .leaving r) : SaveMove s i c (.returned r) { s with gate := none }

theorem callStep_cases [DecidableEq H] (h : s.callStep i c a = some s') :
    ∃ p t, SaveMove s i c p t ∧ s' = t.setPhase i c p := by
  unfold callStep at h
  split at h
  · rename_i hphase
    cases h
    exact ⟨_, _, .loaded hphase, rfl⟩
  · rename_i rev hphase
    cases h
    by_cases hsaved : s.savedRev = some rev
    · exact ⟨_, _, .saved rev hphase hsaved, by rw [if_pos hsaved]⟩
    · exact ⟨_, _, .unsaved rev hphase hsaved, by rw [if_neg hsaved]⟩
  · rename_i hphase
    split at h
    · rename_i hgate
      cases h
      exact ⟨_, _, .entered hphase hgate, rfl⟩
    · cases h
  · rename_i hphase
    split at h
    · rename_i hlock
      split at h
      · rename_i data hdata
        cases h
        exact ⟨_, _, .encoded hphase hlock data hdata, rfl⟩
      · rename_i e he
        cases h
        exact ⟨_, _, .refused (by rw [hphase]; rfl) (by rw [hphase]; rfl) e, rfl⟩
    · cases h
  · rename_i rev data hphase
    cases h
    exact ⟨_, _, .failed (by rw [hphase]; rfl) (by rw [hphase]; rfl) _, rfl⟩
  · rename_i rev data hphase
    cases h
    unfold compare
    split
    · rename_i hsame
      exact ⟨_, _, .same rev data hphase hsame.1, rfl⟩
    · exact ⟨_, _, .differs rev data hphase, rfl⟩
  · rename_i rev data hphase
    cases h
    exact ⟨_, _, .persisted rev data hphase, rfl⟩
  · rename_i rev data hphase
    cases h
    exact ⟨_, _, .failed (by rw [hphase]; rfl) (by rw [hphase]; rfl) _, rfl⟩
  · rename_i rev data hphase
    cases h
    exact ⟨_, _, .remembered rev data hphase, rfl⟩
  · rename_i rev hphase
    cases h
    exact ⟨_, _, .stored rev hphase, rfl⟩
  · rename_i r hphase
    cases h
    exact ⟨_, _, .left r hphase, rfl⟩
  · cases h

/-- A step of a writer: it only touches the list, and counts what it leaves behind. -/
inductive WriterMove (s : SessionStore T H) : SessionStore T H → Prop where
  | lock (hlock : s.lock = .free) : WriterMove s { s with lock := .held }
  | modify (hlock : s.lock = .held) (tasks : List T) : WriterMove s { s with inner := tasks }
  | count (hlock : s.lock = .held) :
      WriterMove s { s with lock := .counted, rev := s.rev + 1, lists := s.lists ++ [s.inner] }
  | unlock (hlock : s.lock = .counted) : WriterMove s { s with lock := .free }

/-- What a step does. -/
theorem step_cases [DecidableEq H] (h : s.step a = some s') :
    WriterMove s s' ∨ s' = { s with calls := s.calls ++ [⟨s.rev, .started⟩] } ∨
      ∃ i c p t, s.calls[i]? = some c ∧ SaveMove s i c p t ∧ s' = t.setPhase i c p := by
  have hcall : ∀ i, (s.calls[i]?.bind fun c => s.callStep i c a) = some s' →
      ∃ i c p t, s.calls[i]? = some c ∧ SaveMove s i c p t ∧ s' = t.setPhase i c p := by
    intro i hi
    obtain ⟨c, hc, hstep⟩ := Option.bind_eq_some_iff.mp hi
    obtain ⟨p, t, hmove, rfl⟩ := callStep_cases hstep
    exact ⟨i, c, p, t, hc, hmove, rfl⟩
  cases a with
  | lock =>
    simp only [step, writerStep, Option.ite_none_right_eq_some, Option.some.injEq] at h
    obtain ⟨hlock, rfl⟩ := h
    exact .inl (.lock hlock)
  | modify tasks =>
    simp only [step, writerStep, Option.ite_none_right_eq_some, Option.some.injEq] at h
    obtain ⟨hlock, rfl⟩ := h
    exact .inl (.modify hlock tasks)
  | count =>
    simp only [step, writerStep, Option.ite_none_right_eq_some, Option.some.injEq] at h
    obtain ⟨hlock, rfl⟩ := h
    exact .inl (.count hlock)
  | unlock =>
    simp only [step, writerStep, Option.ite_none_right_eq_some, Option.some.injEq] at h
    obtain ⟨hlock, rfl⟩ := h
    exact .inl (.unlock hlock)
  | call =>
    cases h
    exact .inr (.inl rfl)
  | loadRev i | loadSavedRev i | enter i | encode i | joinFailed i e | compare i | persist i e | remember i | store i | leave i =>
    exact .inr (.inr (hcall i h))

/-! ## The invariant -/

/-- Data is the encoding of the list of a revision. -/
def Encodes (s : SessionStore T H) (rev : ℕ) (data : List UInt8) : Prop := ∃ l, s.lists[rev]? = some l ∧ encode l = .ok data

/-- The file holds the encoding of the list of a revision. -/
def Holds (s : SessionStore T H) (rev : ℕ) : Prop := ∃ data, s.Encodes rev data ∧ s.file = some data

/-- No two lists of the run share a hash and not their bytes. -/
def CollisionFree (s : SessionStore T H) : Prop :=
  ∀ r r' data data', s.Encodes r data → s.Encodes r' data' →
    Persisted.hash (T := T) data = Persisted.hash (T := T) data' → data = data'

/-- What holds of a call by its phase. -/
def Fits (s : SessionStore T H) (c : SaveCall) : Prop :=
  match c.phase with
  | .started | .waiting | .gated => c.began ≤ s.rev
  | .looking rev => c.began ≤ rev ∧ rev ≤ s.rev
  | .encoded rev data | .differing rev data => c.began ≤ rev ∧ s.Encodes rev data ∧ ∀ v, s.current = some v → v ≤ rev
  | .persisted rev data => c.began ≤ rev ∧ s.current = some rev ∧ s.file = some data
  | .written rev => c.began ≤ rev ∧ s.current = some rev
  | .leaving (.ok _) | .returned (.ok _) => ∃ v, s.current = some v ∧ c.began ≤ v
  | .leaving (.error _) | .returned (.error _) => True

/-- The state of a store between steps. -/
structure Sound (s : SessionStore T H) : Prop where
  revs : s.lists.length = s.rev + 1
  newest : s.lock ≠ .held → s.lists[s.rev]? = some s.inner
  current : ∀ v, s.current = some v → s.Holds v
  saved : ∀ r, s.savedRev = some r → ∃ v, s.current = some v ∧ r ≤ v
  recorded : (s.failed = true ∨ ∀ (j : ℕ) (c : SaveCall), s.calls[j]? = some c → c.phase.unrecorded = false) →
    ∀ r, s.savedRev = some r → s.Holds r
  remembered : (∀ (j : ℕ) (c : SaveCall), s.calls[j]? = some c → c.phase.unremembered = false) →
    ∀ h, s.lastHash = some h → ∃ v data, s.Encodes v data ∧ s.file = some data ∧ h = Persisted.hash (T := T) data
  writes : s.writes.Pairwise (· ≤ ·) ∧ ∀ w ∈ s.writes, ∃ v, s.current = some v ∧ w ≤ v
  gate : ∀ (j : ℕ) (c : SaveCall), s.calls[j]? = some c → c.phase.holdsGate = true → s.gate = some j
  calls : ∀ (j : ℕ) (c : SaveCall), s.calls[j]? = some c → s.Fits c

theorem Encodes.mono {r : ℕ} {data : List UInt8} (h : s.Encodes r data) (hlists : s.lists <+: t.lists) :
    t.Encodes r data := by
  obtain ⟨l, hl, hdata⟩ := h
  obtain ⟨hlt, -⟩ := List.getElem?_eq_some_iff.mp hl
  refine ⟨l, ?_, hdata⟩
  rw [← hl]
  exact (List.prefix_iff_getElem?.mp hlists r hlt).trans (List.getElem?_eq_getElem hlt).symm

theorem Holds.mono {r : ℕ} (h : s.Holds r) (hlists : s.lists <+: t.lists) (hfile : t.file = s.file) :
    t.Holds r := by
  obtain ⟨data, hdata, hheld⟩ := h
  exact ⟨data, hdata.mono hlists, hfile.trans hheld⟩

theorem CollisionFree.of_prefix (h : t.CollisionFree) (hlists : s.lists <+: t.lists) : s.CollisionFree :=
  fun r r' data data' hr hr' => h r r' data data' (hr.mono hlists) (hr'.mono hlists)

/-- What holds of a call goes on to hold while the list and the revision in the file advance, the latter not while the call holds the gate. -/
theorem Fits.mono (h : s.Fits c) (hrev : s.rev ≤ t.rev) (hlists : s.lists <+: t.lists)
    (hcurrent : ∀ v, s.current = some v → ∃ v', t.current = some v' ∧ v ≤ v')
    (hheld : c.phase.holdsGate = true → t.current = s.current ∧ t.file = s.file) : t.Fits c := by
  have hlater : (∃ v, s.current = some v ∧ c.began ≤ v) → ∃ v, t.current = some v ∧ c.began ≤ v := by
    rintro ⟨v, hv, hle⟩
    obtain ⟨v', hv', hle'⟩ := hcurrent v hv
    exact ⟨v', hv', hle.trans hle'⟩
  obtain ⟨began, phase⟩ := c
  cases phase with
  | started | waiting | gated => exact Nat.le_trans h hrev
  | looking rev => exact ⟨h.1, h.2.trans hrev⟩
  | encoded rev data | differing rev data =>
    obtain ⟨hbegan, hdata, hle⟩ := h
    exact ⟨hbegan, hdata.mono hlists, fun v hv => hle v (by rw [← (hheld rfl).1, hv])⟩
  | persisted rev data =>
    obtain ⟨hbegan, hcur, hfile⟩ := h
    exact ⟨hbegan, (hheld rfl).1.trans hcur, (hheld rfl).2.trans hfile⟩
  | written rev =>
    obtain ⟨hbegan, hcur⟩ := h
    exact ⟨hbegan, (hheld rfl).1.trans hcur⟩
  | leaving r | returned r =>
    cases r with
    | ok u => exact hlater h
    | error e => trivial

theorem sound_new (tasks : List T) (file : Option (List UInt8)) : Sound (new tasks file : SessionStore T H) where
  revs := rfl
  newest _ := rfl
  current _ h := nomatch h
  saved _ h := nomatch h
  recorded _ _ h := nomatch h
  remembered _ _ h := nomatch h
  writes := ⟨.nil, fun _ h => nomatch h⟩
  gate _ _ h := nomatch h
  calls _ _ h := nomatch h

/-! ## Steps of the writers, and new calls -/

theorem Sound.writer (h : Sound s) (hmove : WriterMove s s') : Sound s' := by
  have hlists : s.lists <+: s.lists ++ [s.inner] := List.prefix_append ..
  cases hmove with
  | lock hlock => exact { h with newest := nofun }
  | modify hlock tasks => exact { h with newest := fun hne => absurd hlock hne }
  | unlock hlock => exact { h with newest := fun _ => h.newest (by rw [hlock]; decide) }
  | count hlock =>
    refine { revs := ?_, newest := ?_, current := ?_, saved := h.saved, recorded := ?_, remembered := ?_, writes := h.writes,
             gate := h.gate, calls := ?_ }
    · rw [List.length_append, h.revs]
      rfl
    · intro _
      rw [List.getElem?_append_right h.revs.le, h.revs]
      simp
    · exact fun v hv => (h.current v hv).mono hlists rfl
    · exact fun hnone r hr => (h.recorded hnone r hr).mono hlists rfl
    · intro hnone x hx
      obtain ⟨v, data, hdata, hfile, rfl⟩ := h.remembered hnone x hx
      exact ⟨v, data, hdata.mono hlists, hfile, rfl⟩
    · exact fun j c hc => (h.calls j c hc).mono (Nat.le_succ _) hlists (fun v hv => ⟨v, hv, le_rfl⟩) fun _ => ⟨rfl, rfl⟩

theorem Sound.call (h : Sound s) : Sound { s with calls := s.calls ++ [⟨s.rev, .started⟩] } := by
  have hcases : ∀ (j : ℕ) (c : SaveCall), (s.calls ++ [⟨s.rev, .started⟩])[j]? = some c → s.calls[j]? = some c ∨ c = ⟨s.rev, .started⟩ := by
    intro j c hc
    rcases lt_trichotomy j s.calls.length with hlt | rfl | hgt
    · rw [List.getElem?_append_left hlt] at hc
      exact .inl hc
    · rw [List.getElem?_concat_length] at hc
      exact .inr (Option.some.inj hc).symm
    · rw [List.getElem?_eq_none (by simp; omega)] at hc
      cases hc
  have hold : ∀ (j : ℕ) (c : SaveCall), s.calls[j]? = some c → (s.calls ++ [⟨s.rev, .started⟩])[j]? = some c := by
    intro j c hc
    rw [List.getElem?_append_left (List.getElem?_eq_some_iff.mp hc).1, hc]
  refine { h with recorded := ?_, remembered := ?_, gate := ?_, calls := ?_ }
  · exact fun hnone => h.recorded (hnone.imp_right fun hall j c hc => hall j c (hold j c hc))
  · exact fun hnone => h.remembered fun j c hc => hnone j c (hold j c hc)
  · intro j c hc hholds
    rcases hcases j c hc with hc | rfl
    · exact h.gate j c hc hholds
    · cases hholds
  · intro j c hc
    rcases hcases j c hc with hc | rfl
    · exact h.calls j c hc
    · exact le_refl s.rev

/-! ## Moves of a call -/

omit [Persisted T H] in
theorem getElem?_setPhase {j : ℕ} {c' : SaveCall}
    (h : (s.setPhase i c p).calls[j]? = some c') : (j = i ∧ c' = ⟨c.began, p⟩) ∨ (j ≠ i ∧ s.calls[j]? = some c') := by
  change (s.calls.set i ⟨c.began, p⟩)[j]? = some c' at h
  rcases eq_or_ne i j with rfl | hne
  · rw [List.getElem?_set_self'] at h
    obtain ⟨d, -, rfl⟩ := Option.map_eq_some_iff.mp h
    exact .inl ⟨rfl, rfl⟩
  · rw [List.getElem?_set_ne hne] at h
    exact .inr ⟨hne.symm, h⟩

/-- The gate has one holder. -/
theorem Sound.only (h : Sound s) {j : ℕ} {d : SaveCall} (hc : s.calls[i]? = some c)
    (hholds : c.phase.holdsGate = true) (hd : s.calls[j]? = some d) (hne : j ≠ i) : d.phase.holdsGate = false := by
  cases hheld : d.phase.holdsGate with
  | false => rfl
  | true =>
    have hi := h.gate i c hc hholds
    rw [h.gate j d hd hheld] at hi
    exact absurd (Option.some.inj hi) hne

/-- What a move does to the rest: the lists stay, the revision in the file advances, and only under the gate. -/
theorem SaveMove.rest (hmove : SaveMove s i c p t) (hfits : s.Fits c) :
    t.calls = s.calls ∧ t.lists = s.lists ∧ t.rev = s.rev ∧ t.lock = s.lock ∧ t.inner = s.inner ∧
      (∀ v, s.current = some v → ∃ v', t.current = some v' ∧ v ≤ v') ∧
      (c.phase.holdsGate = false → t.current = s.current ∧ t.file = s.file) := by
  have hself : ∀ v, s.current = some v → ∃ v', s.current = some v' ∧ v ≤ v' := fun v hv => ⟨v, hv, le_rfl⟩
  obtain ⟨began, phase⟩ := c
  cases hmove with
  | same rev data hphase hhash =>
    obtain rfl : phase = .encoded rev data := hphase
    exact ⟨rfl, rfl, rfl, rfl, rfl, fun v hv => ⟨rev, rfl, hfits.2.2 v hv⟩, nofun⟩
  | persisted rev data hphase =>
    obtain rfl : phase = .differing rev data := hphase
    exact ⟨rfl, rfl, rfl, rfl, rfl, fun v hv => ⟨rev, rfl, hfits.2.2 v hv⟩, nofun⟩
  | loaded | saved | unsaved | entered | encoded | refused | differs | failed | remembered | stored | left =>
    exact ⟨rfl, rfl, rfl, rfl, rfl, hself, fun _ => ⟨rfl, rfl⟩⟩

/-- What holds of a call after its move. -/
theorem Sound.fits_move (h : Sound s) (hmove : SaveMove s i c p t)
    (hfits : s.Fits c) : t.Fits ⟨c.began, p⟩ := by
  obtain ⟨began, phase⟩ := c
  cases hmove with
  | loaded hphase =>
    obtain rfl : phase = .started := hphase
    exact ⟨hfits, le_rfl⟩
  | saved rev hphase hsaved =>
    obtain rfl : phase = .looking rev := hphase
    obtain ⟨v, hv, hle⟩ := h.saved rev hsaved
    exact ⟨v, hv, hfits.1.trans hle⟩
  | unsaved rev hphase hsaved =>
    obtain rfl : phase = .looking rev := hphase
    exact hfits.1.trans hfits.2
  | entered hphase hgate =>
    obtain rfl : phase = .waiting := hphase
    exact hfits
  | encoded hphase hlock data hdata =>
    obtain rfl : phase = .gated := hphase
    refine ⟨hfits, ⟨s.inner, h.newest (by rw [hlock]; decide), hdata⟩, fun v hv => ?_⟩
    obtain ⟨data, ⟨l, hl, -⟩, -⟩ := h.current v hv
    have hlt := (List.getElem?_eq_some_iff.mp hl).1
    have hrevs := h.revs
    omega
  | refused | failed => trivial
  | same rev data hphase hhash =>
    obtain rfl : phase = .encoded rev data := hphase
    exact ⟨hfits.1, rfl⟩
  | differs rev data hphase =>
    obtain rfl : phase = .encoded rev data := hphase
    exact hfits
  | persisted rev data hphase =>
    obtain rfl : phase = .differing rev data := hphase
    exact ⟨hfits.1, rfl, rfl⟩
  | remembered rev data hphase =>
    obtain rfl : phase = .persisted rev data := hphase
    exact ⟨hfits.1, hfits.2.1⟩
  | stored rev hphase =>
    obtain rfl : phase = .written rev := hphase
    exact ⟨rev, hfits.2, hfits.1⟩
  | left r hphase =>
    obtain rfl : phase = .leaving r := hphase
    cases r with
    | ok u => exact hfits
    | error e => trivial

/-- A move keeps the file of a revision in step with `current`. -/
theorem Sound.current_move (h : Sound s) (hmove : SaveMove s i c p t)
    (hfits : s.Fits c) (hfree : s.CollisionFree) (hc : s.calls[i]? = some c) : ∀ v, t.current = some v → t.Holds v := by
  obtain ⟨began, phase⟩ := c
  cases hmove with
  | same rev data hphase hhash =>
    obtain rfl : phase = .encoded rev data := hphase
    rintro v ⟨⟩
    have hnone : ∀ (j : ℕ) (d : SaveCall), s.calls[j]? = some d → d.phase.unremembered = false := by
      intro j d hd
      rcases eq_or_ne j i with rfl | hne
      · rw [hc] at hd
        cases hd
        rfl
      · have hholds := h.only hc rfl hd hne
        cases hun : d.phase.unremembered with
        | false => rfl
        | true =>
          rw [SavePhase.holdsGate_of_unrecorded (SavePhase.unrecorded_of_unremembered hun)] at hholds
          cases hholds
    obtain ⟨r, data', hdata', hfile, heq⟩ := h.remembered hnone _ hhash
    obtain rfl := hfree rev r data data' hfits.2.1 hdata' heq
    exact ⟨data, hfits.2.1, hfile⟩
  | persisted rev data hphase =>
    obtain rfl : phase = .differing rev data := hphase
    rintro v ⟨⟩
    exact ⟨data, hfits.2.1, rfl⟩
  | loaded | saved | unsaved | entered | encoded | refused | differs | failed | remembered | stored | left => exact h.current

theorem Sound.saved_move (h : Sound s) (hmove : SaveMove s i c p t)
    (hfits : s.Fits c) : ∀ r, t.savedRev = some r → ∃ v, t.current = some v ∧ r ≤ v := by
  have hkeep : ∀ r, s.savedRev = some r → ∃ v, t.current = some v ∧ r ≤ v := by
    intro r hr
    obtain ⟨v, hv, hle⟩ := h.saved r hr
    obtain ⟨v', hv', hle'⟩ := (hmove.rest hfits).2.2.2.2.2.1 v hv
    exact ⟨v', hv', hle.trans hle'⟩
  obtain ⟨began, phase⟩ := c
  cases hmove with
  | stored rev hphase =>
    obtain rfl : phase = .written rev := hphase
    rintro r ⟨⟩
    exact ⟨rev, hfits.2, le_rfl⟩
  | loaded | saved | unsaved | entered | encoded | refused | same | differs | persisted | failed | remembered | left => exact hkeep

theorem Sound.writes_move (h : Sound s) (hmove : SaveMove s i c p t)
    (hfits : s.Fits c) : t.writes.Pairwise (· ≤ ·) ∧ ∀ w ∈ t.writes, ∃ v, t.current = some v ∧ w ≤ v := by
  have hkeep : ∀ w ∈ s.writes, ∃ v, t.current = some v ∧ w ≤ v := by
    intro w hw
    obtain ⟨v, hv, hle⟩ := h.writes.2 w hw
    obtain ⟨v', hv', hle'⟩ := (hmove.rest hfits).2.2.2.2.2.1 v hv
    exact ⟨v', hv', hle.trans hle'⟩
  obtain ⟨began, phase⟩ := c
  cases hmove with
  | persisted rev data hphase =>
    obtain rfl : phase = .differing rev data := hphase
    have hle : ∀ w ∈ s.writes, w ≤ rev := by
      intro w hw
      obtain ⟨v, hv, hwv⟩ := h.writes.2 w hw
      exact hwv.trans (hfits.2.2 v hv)
    refine ⟨List.pairwise_append.mpr ⟨h.writes.1, List.pairwise_singleton .., ?_⟩, ?_⟩
    · simpa using hle
    · intro w hw
      refine ⟨rev, rfl, ?_⟩
      rcases List.mem_append.mp hw with hw | hw
      · exact hle w hw
      · exact (List.mem_singleton.mp hw).le
  | loaded | saved | unsaved | entered | encoded | refused | same | differs | failed | remembered | stored | left =>
    exact ⟨h.writes.1, hkeep⟩

theorem Sound.gate_move (h : Sound s) (hmove : SaveMove s i c p t)
    (hc : s.calls[i]? = some c) :
    (p.holdsGate = true → t.gate = some i) ∧
      ∀ (j : ℕ) (d : SaveCall), j ≠ i → s.calls[j]? = some d → d.phase.holdsGate = true → t.gate = some j := by
  have hothers := fun (j : ℕ) (d : SaveCall) (_ : j ≠ i) => h.gate j d
  obtain ⟨began, phase⟩ := c
  cases hmove with
  | entered hphase hgate =>
    refine ⟨fun _ => rfl, fun j d hne hd hholds => ?_⟩
    rw [h.gate j d hd hholds] at hgate
    cases hgate
  | left r hphase =>
    obtain rfl : phase = .leaving r := hphase
    refine ⟨nofun, fun j d hne hd hholds => ?_⟩
    rw [h.only hc rfl hd hne] at hholds
    cases hholds
  | loaded | saved | unsaved => exact ⟨nofun, hothers⟩
  | refused hholds | failed hholds => exact ⟨fun _ => h.gate i _ hc hholds, hothers⟩
  | encoded hphase | same _ _ hphase | differs _ _ hphase | persisted _ _ hphase | remembered _ _ hphase
  | stored _ hphase =>
    obtain rfl : phase = _ := hphase
    exact ⟨fun _ => h.gate i _ hc rfl, hothers⟩

/-- While the last write failed, or none is about to be recorded, the file holds the list of `saved_rev`. -/
theorem Sound.recorded_move (h : Sound s) (hmove : SaveMove s i c p t)
    (hfits : s.Fits c) (hc : s.calls[i]? = some c) :
    (t.failed = true ∨ ∀ (j : ℕ) (d : SaveCall), (t.setPhase i c p).calls[j]? = some d → d.phase.unrecorded = false) →
      ∀ r, t.savedRev = some r → t.Holds r := by
  -- A move of a call that was recorded and stays so.
  have hquiet : c.phase.unrecorded = false → t.calls = s.calls →
      (∀ (j : ℕ) (d : SaveCall), (t.setPhase i c p).calls[j]? = some d → d.phase.unrecorded = false) →
      ∀ r, s.savedRev = some r → s.Holds r := by
    intro hrecorded hcalls hall
    refine h.recorded (.inr fun j d hd => ?_)
    rcases eq_or_ne j i with rfl | hne
    · rw [hc] at hd
      cases hd
      exact hrecorded
    · refine hall j d ?_
      change (t.calls.set i _)[j]? = some d
      rw [hcalls, List.getElem?_set_ne hne.symm, hd]
  have hset : i < s.calls.length := (List.getElem?_eq_some_iff.mp hc).1
  have hheld : s.calls[i]? = some c := hc
  obtain ⟨began, phase⟩ := c
  cases hmove with
  | stored rev hphase =>
    obtain rfl : phase = .written rev := hphase
    rintro - r ⟨⟩
    exact h.current rev hfits.2
  | persisted rev data hphase =>
    rintro (hf | hall)
    · cases hf
    · have hi := hall i ⟨began, .persisted rev data⟩ (List.getElem?_set_self hset)
      cases hi
  | same rev data hphase hhash | remembered rev data hphase =>
    rintro (hf | hall)
    · exact h.recorded (.inl hf)
    · have hi := hall i ⟨began, .written rev⟩ (List.getElem?_set_self hset)
      cases hi
  | failed hholds hrecorded e =>
    intro _
    refine h.recorded (.inr fun j d hd => ?_)
    rcases eq_or_ne j i with rfl | hne
    · rw [hheld] at hd
      cases hd
      exact hrecorded
    · have hholds := h.only hheld hholds hd hne
      cases hun : d.phase.unrecorded with
      | false => rfl
      | true =>
        rw [SavePhase.holdsGate_of_unrecorded hun] at hholds
        cases hholds
  | refused hholds hrecorded => exact fun hnone => hnone.elim (fun hf => h.recorded (.inl hf)) (hquiet hrecorded rfl)
  | loaded hphase | entered hphase | encoded hphase | differs _ _ hphase | saved _ hphase | unsaved _ hphase | left _ hphase =>
    obtain rfl : phase = _ := hphase
    exact fun hnone => hnone.elim (fun hf => h.recorded (.inl hf)) (hquiet rfl rfl)

theorem Sound.remembered_move (h : Sound s) (hmove : SaveMove s i c p t)
    (hfits : s.Fits c) (hc : s.calls[i]? = some c) :
    (∀ (j : ℕ) (d : SaveCall), (t.setPhase i c p).calls[j]? = some d → d.phase.unremembered = false) →
      ∀ x, t.lastHash = some x → ∃ v data, t.Encodes v data ∧ t.file = some data ∧ x = Persisted.hash (T := T) data := by
  have hquiet : c.phase.unremembered = false → t.calls = s.calls →
      (∀ (j : ℕ) (d : SaveCall), (t.setPhase i c p).calls[j]? = some d → d.phase.unremembered = false) →
      ∀ x, s.lastHash = some x → ∃ v data, s.Encodes v data ∧ s.file = some data ∧ x = Persisted.hash (T := T) data := by
    intro hremembered hcalls hall
    refine h.remembered fun j d hd => ?_
    rcases eq_or_ne j i with rfl | hne
    · rw [hc] at hd
      cases hd
      exact hremembered
    · refine hall j d ?_
      change (t.calls.set i _)[j]? = some d
      rw [hcalls, List.getElem?_set_ne hne.symm, hd]
  have hset : i < s.calls.length := (List.getElem?_eq_some_iff.mp hc).1
  obtain ⟨began, phase⟩ := c
  cases hmove with
  | persisted rev data hphase =>
    intro hall
    have hi := hall i ⟨began, .persisted rev data⟩ (List.getElem?_set_self hset)
    cases hi
  | remembered rev data hphase =>
    obtain rfl : phase = .persisted rev data := hphase
    rintro - x ⟨⟩
    obtain ⟨data', hdata', hfile⟩ := h.current rev hfits.2.1
    rw [hfits.2.2] at hfile
    cases hfile
    exact ⟨rev, data, hdata', hfits.2.2, rfl⟩
  | refused hholds hrecorded | failed hholds hrecorded =>
    refine hquiet ?_ rfl
    cases hun : phase.unremembered with
    | false => rfl
    | true => exact absurd (SavePhase.unrecorded_of_unremembered hun) (by simp_all)
  | loaded hphase | entered hphase | encoded hphase | differs _ _ hphase | saved _ hphase | unsaved _ hphase | left _ hphase
  | same _ _ hphase | stored _ hphase =>
    obtain rfl : phase = _ := hphase
    exact hquiet rfl rfl

/-- The move lemma: a call keeps the invariant, without collisions. -/
theorem Sound.move (h : Sound s) (hmove : SaveMove s i c p t)
    (hc : s.calls[i]? = some c) (hfree : s.CollisionFree) : Sound (t.setPhase i c p) := by
  have hfits := h.calls i c hc
  obtain ⟨hcalls, hlists, hrev, hlock, hinner, hcurrent, hheld⟩ := hmove.rest hfits
  obtain ⟨hgate, hothers⟩ := h.gate_move hmove hc
  have hold : ∀ {j : ℕ} {d : SaveCall}, (t.setPhase i c p).calls[j]? = some d →
      (j = i ∧ d = ⟨c.began, p⟩) ∨ (j ≠ i ∧ s.calls[j]? = some d) := by
    intro j d hd
    rw [← hcalls]
    exact getElem?_setPhase hd
  have hprefix : s.lists <+: t.lists := hlists ▸ List.prefix_refl _
  have hwrites := h.writes_move hmove hfits
  have hsaved := h.saved_move hmove hfits
  have hfit := h.fits_move hmove hfits
  have hcur := h.current_move hmove hfits hfree hc
  refine { revs := ?_, newest := ?_, current := hcur, saved := hsaved,
           recorded := h.recorded_move hmove hfits hc, remembered := h.remembered_move hmove hfits hc,
           writes := hwrites, gate := ?_, calls := ?_ }
  · change t.lists.length = t.rev + 1
    rw [hlists, hrev, h.revs]
  · intro hne
    change t.lists[t.rev]? = some t.inner
    rw [hlists, hrev, hinner]
    exact h.newest (hlock ▸ hne)
  · intro j d hd hholds
    rcases hold hd with ⟨rfl, rfl⟩ | ⟨hne, hd⟩
    · exact hgate hholds
    · exact hothers j d hne hd hholds
  · intro j d hd
    rcases hold hd with ⟨rfl, rfl⟩ | ⟨hne, hd⟩
    · exact hfit
    · refine (h.calls j d hd).mono hrev.ge hprefix hcurrent fun hholds => hheld ?_
      -- The other call holds the gate, so this one does not.
      cases hc' : c.phase.holdsGate with
      | false => rfl
      | true =>
        rw [h.only hc hc' hd hne] at hholds
        cases hholds

variable [DecidableEq H]

theorem lists_step (hs : s.step a = some s') : s.lists <+: s'.lists := by
  rcases step_cases hs with hwriter | rfl | ⟨i, c, p, t, hc, hmove, rfl⟩
  · cases hwriter with
    | count => exact List.prefix_append ..
    | lock | modify | unlock => exact List.prefix_refl _
  · exact List.prefix_refl _
  · change s.lists <+: t.lists
    cases hmove <;> exact List.prefix_refl _

/-- The step lemma. -/
theorem Sound.step (h : Sound s) (hs : s.step a = some s') (hfree : s.CollisionFree) :
    Sound s' := by
  rcases step_cases hs with hwriter | rfl | ⟨i, c, p, t, hc, hmove, rfl⟩
  · exact h.writer hwriter
  · exact h.call
  · exact h.move hmove hc hfree

theorem Reachable.sound (h : Reachable s) (hfree : s.CollisionFree) : Sound s := by
  have hinit : ∀ s : SessionStore T H, (∃ tasks file, s = new tasks file) → s.CollisionFree → Sound s := by
    rintro _ ⟨tasks, file, rfl⟩ -
    exact sound_new tasks file
  have hstep : ∀ s s' : SessionStore T H, (s.CollisionFree → Sound s) → (∃ a, s.step a = some s') → s'.CollisionFree → Sound s' := by
    rintro s s' hsound ⟨a, hs⟩ hfree'
    have hfree := hfree'.of_prefix (lists_step hs)
    exact (hsound hfree).step hs hfree
  exact Reach.invariant hinit hstep h hfree

end SessionStore

end Engine

end Risuko
