import Risuko.Lemmas.Capacity
import Risuko.Lemmas.Crc32
import Risuko.Lemmas.Reservation
import Risuko.Lemmas.BencodeParser

/-!
# Usenet connections

How many connections a server gets, what is read out of an article, and who may write an output.
-/

namespace Risuko

/-!
## The connections of a provider over whole runs

As long as no ticket is drawn twice, a ticket waits or is leased and not both, promotions go to the first waiter and stay below every
limit, and no waiter misses that it could be promoted. The last holds up to the signal that a call has still to send.
-/

namespace Usenet

namespace ProviderConnectionGate

/-- A waiter that was refused was sent a signal since then, and has not seen it if it waits for one. -/
def Roused (s : ProviderConnectionGate) (c : AcquireCall) : Prop :=
  ∀ n, c.failedAt = some n → n < s.sent ∧ (c.phase = .refused → c.seen < s.sent)

/-- What a gate promises: a ticket is at one place, a new lease is that of the lowest waiting ticket and leaves no more leases than any
limit allows, and the waiter of a ticket that could be promoted is roused, now or by a signal that is on its way. -/
structure Sound (s : ProviderConnectionGate) : Prop where
  apart : ∀ t ∈ s.state.waiting.keys, t ∉ s.state.leased.keys
  promotions : ∀ a s' t, s.step a = some s' → t ∉ s.state.leased.keys → t ∈ s'.state.leased.keys →
    IsLeast { t | t ∈ s.state.waiting.keys } t ∧ ∃ limit, IsLeast { l | l ∈ s.state.limits } limit ∧ s'.state.leased.size ≤ limit
  wakes : ∀ t, s.state.tryPromote t ≠ none → ∃ c ∈ s.calls, c.ticket = t ∧ c.phase.isWaiting = true ∧
    (∀ d ∈ s.calls, d.ticket = t → d = c) ∧ (s.Roused c ∨ ∃ d ∈ s.calls, d.phase.owesSignal = true)

/-- No ticket both waits and holds a connection. -/
theorem Placed.apart {s : ProviderConnectionGate} (h : Placed s) : ∀ t ∈ s.state.waiting.keys, t ∉ s.state.leased.keys := by
  intro t hw hl
  obtain ⟨c, hc, hwaiting⟩ := h.waiting t hw
  obtain ⟨d, hd, hleased⟩ := h.leased t hl
  rw [hc] at hd
  cases hd
  rw [AcquirePhase.isLeased_of_isWaiting hwaiting] at hleased
  cases hleased

/-- A new lease comes from a promotion. -/
theorem promotion_of_new_lease {s s' : ProviderConnectionGate} {a : Action} {t : ℕ} (hs : s.step a = some s')
    (hold : t ∉ s.state.leased.keys) (hnew : t ∈ s'.state.leased.keys) : s.state.tryPromote t = some s'.state := by
  rcases step_cases hs with ⟨limit, waits, rfl⟩ | ⟨i, c, c', state, sent, hc, hmove, rfl⟩
  · exact absurd hnew hold
  · cases hmove with
    | signal | listen | refused | cancelled | gone => exact absurd hnew hold
    | released => exact absurd (mem_keys_erase.mp hnew).2 hold
    | promoted hphase state hsome =>
      obtain ⟨snapshotLimit, limit, -, -, -, rfl⟩ := ProviderConnectionGateState.tryPromote_eq_some hsome
      rcases mem_keys_insert.mp hnew with rfl | hnew
      · exact hsome
      · exact absurd hnew hold

/-- A promotion is that of the lowest ticket, and leaves room below every limit. -/
theorem promotion_bounded {s s' : ProviderConnectionGateState} {t : ℕ} (h : s.tryPromote t = some s') :
    IsLeast { t | t ∈ s.waiting.keys } t ∧ ∃ limit, IsLeast { l | l ∈ s.limits } limit ∧ s'.leased.size ≤ limit := by
  obtain ⟨snapshotLimit, limit, hfirst, hlimit, hroom, rfl⟩ := ProviderConnectionGateState.tryPromote_eq_some h
  obtain ⟨hmem, hle⟩ := List.min?_eq_some_iff.mp hlimit
  refine ⟨ProviderConnectionGateState.isLeast_first hfirst, limit, ⟨hmem, fun l hl => hle l hl⟩, ?_⟩
  exact (OrdMap.size_insert_le _ _ _).trans hroom

/-- A gate where every ticket has its place and every waiter will hear is sound. -/
theorem sound_of_placed {s : ProviderConnectionGate} (h : Placed s) (hheard : Heard s) : Sound s where
  apart := h.apart
  promotions a s' t hs hold hnew := promotion_bounded (promotion_of_new_lease hs hold hnew)
  wakes t hp := by
    obtain ⟨state, hsome⟩ := Option.ne_none_iff_exists'.mp hp
    obtain ⟨c, hc, hwaiting⟩ := h.waiting t (promotion_bounded hsome).1.1
    have hticket := h.tickets t c hc
    refine ⟨c, List.mem_of_getElem? hc, hticket, hwaiting, ?_, ?_⟩
    · intro d hd ht
      obtain ⟨j, hj⟩ := List.mem_iff_getElem?.mp hd
      rw [← (h.tickets j d hj), ht, hc] at hj
      exact (Option.some.inj hj).symm
    · rcases hheard.roused with howed | hall
      · exact .inr howed
      · refine .inl fun n hn => ?_
        have hlt := hall c (List.mem_of_getElem? hc) n hn (by rw [hticket]; exact hp)
        refine ⟨hlt, fun hrefused => ?_⟩
        obtain ⟨m, hm, hseen⟩ := hheard.refused c (List.mem_of_getElem? hc) hrefused
        rw [hn] at hm
        cases hm
        omega

/-- In every run of calls, in any order of their steps and with any limits, a gate that drew no ticket twice keeps its promises. -/
theorem gate_sound (s : ProviderConnectionGate) (h : Reachable s) (hdrawn : s.calls.length ≤ 2 ^ 64) : s.Sound := by
  have hinit : ∀ s, s = new → (s.calls.length ≤ 2 ^ 64 → Placed s) ∧ Heard s := by
    rintro _ rfl
    exact ⟨fun _ => placed_new, heard_new⟩
  have hstep : ∀ s s', ((s.calls.length ≤ 2 ^ 64 → Placed s) ∧ Heard s) → (∃ a, s.step a = some s') →
      (s'.calls.length ≤ 2 ^ 64 → Placed s') ∧ Heard s' := by
    rintro s s' ⟨hplaced, hheard⟩ ⟨a, hs⟩
    exact ⟨fun hlen => (hplaced ((length_calls_step hs).trans hlen)).step hs hlen, hheard.step hs⟩
  have hinv := Reach.invariant hinit hstep h
  exact sound_of_placed (hinv.1 hdrawn) hinv.2

/-- A lease that is dropped while a second call waits for it. -/
def droppedRun : List Action :=
  [.register 1 false, .signal 0, .attempt 0, .signal 0, .register 1 true, .signal 1, .subscribe 1, .attempt 1, .drop 0]

/-- An acquirer that is dropped while it waits leaves the gate sound. -/
theorem gate_sound_dropped : ∃ s, runActions step new droppedRun = some s ∧ s.Sound :=
  ⟨_, rfl, gate_sound _ (.runActions (L := droppedRun) rfl (.init rfl)) (by decide)⟩

/-! ### What does not hold -/

/-- Calls that register one after the other draw any number of tickets, and leave the leases alone. -/
theorem exists_drawn (n : ℕ) {s : ProviderConnectionGate} (h : Reachable s) (hlt : s.state.nextTicket < 2 ^ 64) :
    ∃ s', Reachable s' ∧ s'.state.nextTicket = (s.state.nextTicket + n) % 2 ^ 64 ∧ s'.state.leased = s.state.leased := by
  induction n with
  | zero => exact ⟨s, h, (Nat.mod_eq_of_lt hlt).symm, rfl⟩
  | succ n ih =>
    obtain ⟨s', hs', hnext, hleased⟩ := ih
    refine ⟨_, .step hs' ⟨.register 1 false, rfl⟩, ?_, hleased⟩
    simp only [ProviderConnectionGateState.registerWaiter, hnext, Nat.mod_add_mod, Nat.add_assoc]

/-- A ticket that is drawn again while its lease lives is at two places. A lease that was dropped, and has not signalled yet, leaves the
first waiter with a refusal that is as new as the last signal. -/
theorem gate_not_sound :
    (¬ ∀ s, Reachable s → ∀ t ∈ s.state.waiting.keys, t ∉ s.state.leased.keys) ∧
      ¬ ∀ s, Reachable s → ∀ c ∈ s.calls, c.phase.isWaiting = true → s.state.tryPromote c.ticket ≠ none →
        ∀ n, c.failedAt = some n → n < s.sent := by
  constructor
  · intro h
    have hleased : Reachable ⟨⟨1, .empty, ⟨[(0, 1)], by simp⟩⟩, 2, [⟨0, false, .leased, 0, none⟩]⟩ :=
      .runActions (L := [.register 1 false, .signal 0, .attempt 0, .signal 0]) rfl (.init rfl)
    obtain ⟨s, hs, hnext, hkept⟩ := exists_drawn (2 ^ 64 - 1) hleased (by decide)
    refine h _ (.step hs ⟨.register 1 false, rfl⟩) 0 (mem_keys_insert.mpr (.inl hnext.symm)) ?_
    change 0 ∈ s.state.leased.keys
    rw [hkept]
    decide
  · intro h
    exact absurd (h _ (.runActions (L := droppedRun) rfl (.init rfl)) ⟨1, true, .refused, 3, some 3⟩ (List.mem_of_getElem? (i := 1) rfl) rfl (by decide)
      3 rfl) (by decide)

end ProviderConnectionGate

end Usenet

end Risuko

/-!
## Usenet articles

What is read out of an article is what was put into it.
-/

namespace Risuko

namespace Usenet

/-! ### The checksum -/

/-- With eight bytes at a time, from the tables, the checksum is that of the definition, one bit at a time. -/
theorem crc32_eq_bitwise (bytes : Bytes) : crc32 bytes = crc32Bitwise bytes := by
  unfold crc32 crc32Bitwise
  rw [crcLoop_eq]
  rfl

example : crc32 "123456789".toUTF8.data.toList = 0xcbf43926 := by
  decide +kernel

end Usenet

end Risuko

/-!
## Output reservations

In one directory no two reservations that are held at a time share an output, a partial file or a sidecar, as long as none is handed out for a rival
of one that is held. A lock is of the name of an output, and so it keeps outputs apart and not the files beside them.
-/

namespace Risuko

namespace Usenet

namespace Reservations

/-- The paths of the reservations that are held are apart. -/
def Exclusive (env : Readers) (s : Reservations) : Prop :=
  EachTwo (fun t t' => t.stage = .held → t'.stage = .held → PathsApart env.tables t.candidate t'.candidate) s.tasks

/-- In every run in which no name is handed out beside a rival, the paths of two held reservations are apart, as the directory reads them. -/
theorem output_reservations_exclusive (env : Readers) (s : Reservations)
    (h : Reach Idle (fun s s' => ∃ a, s.Clear env a ∧ s.step env a = some s') s) : s.Exclusive env := by
  have hstart : ∀ s, Idle s → EachTwo (Exclude env) s.tasks := by
    intro s hidle
    rw [hidle]
    exact EachTwo.nil
  have hstep : ∀ s s' : Reservations, EachTwo (Exclude env) s.tasks → (∃ a, s.Clear env a ∧ s.step env a = some s') →
      EachTwo (Exclude env) s'.tasks := by
    rintro s s' hs ⟨a, hclear, hstep⟩
    exact step_exclude hclear hstep hs
  have hexclude : EachTwo (Exclude env) s.tasks := h.invariant hstart hstep
  intro i j t t' hne ht ht' hheld hheld'
  exact (hexclude i j t t' hne ht ht').pathsApart hheld hheld'

/-- A hash without collisions, a parser that reads no sidecar, and only characters of ASCII. -/
def sampleReaders : Readers where
  sha256Hex := fun bytes => bytes.map fun b => Char.ofNat b.toNat
  readSidecar := fun _ => none
  tables := ⟨fun c => [c], fun _ => false, fun _ => false⟩

def emptyDirectory : Reservations := ⟨fun _ => none, []⟩

/-- Two tasks reserve their outputs in an empty directory, one after the other. -/
def reserveTwo (name other : List Char) : List ReserveAction :=
  List.flatten [[.start name [], .start other []], List.replicate 9 (.advance 0 []), List.replicate 9 (.advance 1 [])]

/-- Two tasks with two names both hold their outputs. -/
theorem output_reservations_exclusive_two :
    ∃ s, (runActions (fun s a => if s.Clear sampleReaders a then s.step sampleReaders a else none) emptyDirectory
      (reserveTwo ['a'] ['b'])) = some s ∧ (s.tasks.map fun t => (t.candidate, t.stage)) = [(['a'], .held), (['b'], .held)] ∧
      s.Exclusive sampleReaders := by
  have hrun : ((runActions (fun s a => if s.Clear sampleReaders a then s.step sampleReaders a else none) emptyDirectory
      (reserveTwo ['a'] ['b'])).map fun s => s.tasks.map fun t => (t.candidate, t.stage)) = some [(['a'], .held), (['b'], .held)] := by
    decide +kernel
  obtain ⟨s, hs, htasks⟩ := Option.map_eq_some_iff.mp hrun
  exact ⟨s, hs, htasks, output_reservations_exclusive sampleReaders s (.runGuarded hs (.init rfl))⟩

/-- The outputs `a` and `a.download` have one partial file, `a.download.part`, and both can be reserved at a time. -/
theorem output_reservations_share : ¬ ∀ (env : Readers) (s : Reservations), Reach Idle (fun s s' => ∃ a, s.step env a = some s') s →
    s.Exclusive env := by
  intro h
  have hrun : ((runActions (fun s a => s.step sampleReaders a) emptyDirectory (reserveTwo ['a'] "a.download".toList)).map fun s =>
      (s.tasks.map fun t => (t.candidate, t.stage))) = some [(['a'], .held), ("a.download".toList, .held)] := by
    decide +kernel
  obtain ⟨s, hs, htasks⟩ := Option.map_eq_some_iff.mp hrun
  have hexclusive := h sampleReaders s (.runActions hs (.init rfl))
  have hplace : ∀ (k : ℕ) (x : List Char × Stage), [(['a'], Stage.held), ("a.download".toList, .held)][k]? = some x →
      ∃ t, s.tasks[k]? = some t ∧ (t.candidate, t.stage) = x := by
    intro k x hx
    rw [← htasks, List.getElem?_map] at hx
    exact Option.map_eq_some_iff.mp hx
  obtain ⟨t, ht, heq⟩ := hplace 0 _ rfl
  obtain ⟨t', ht', heq'⟩ := hplace 1 _ rfl
  obtain ⟨hname, hheld⟩ := Prod.mk.inj heq
  obtain ⟨hname', hheld'⟩ := Prod.mk.inj heq'
  have hapart := hexclusive 0 1 t t' (by decide) ht ht' hheld hheld' (partialPath ['a']) ?_ (partialPath "a.download".toList) ?_
  · exact hapart (congrArg sampleReaders.tables.foldCase (by decide +kernel))
  · rw [hname]
    decide +kernel
  · rw [hname']
    decide +kernel

end Reservations

end Usenet

end Risuko
