import Risuko.Lemmas.Pex
import Risuko.Lemmas.Writer

/-!
# What goes over the wire

The encodings of values and of messages, there and back.
-/

namespace Risuko

/-!
## Bencode: decoding and encoding

The strict decoder accepts exactly the renderings of the values with unique keys and bounded nesting, and the encoder writes the
rendering of the canonical form. So decoding undoes encoding up to the order of dictionary entries, and encoding what was decoded
gives back the input exactly when its dictionaries are in order.
-/

namespace Bencode

/-- First, a value with unique keys that is nested at most 256 deep is encoded and decoded to its canonical form. Second, what was
decoded is encoded without failing; the input lists the entries of its dictionaries in the order of the value, the encoding equals
it exactly when all keys are increasing, and in any case it is the input with entries of dictionaries reordered. Third, two inputs
with one encoding differ in the order of entries only. -/
theorem bencode_round_trip :
    (∀ v : Value, v.UniqueKeys → v.nesting ≤ maxStrictDepth →
      ∃ out, encodeToVec v = some out ∧ decodeAll out = .ok v.canonical) ∧
    (∀ (x : List UInt8) (v : Value), decodeAll x = .ok v →
      x = v.render ∧ ∃ out w, encodeToVec v = some out ∧ (out = x ↔ v.KeysIncreasing) ∧ out = w.render ∧ v.Reordered w) ∧
    ∀ (x y : List UInt8) (v w : Value) (out : List UInt8), decodeAll x = .ok v → decodeAll y = .ok w →
      encodeToVec v = some out → encodeToVec w = some out → x = v.render ∧ y = w.render ∧ v.Reordered w := by
  refine ⟨fun v hu hn => ?_, fun x v hx => ?_, fun x y v w out hx hy hv hw => ?_⟩
  · refine ⟨v.canonical.render, Value.encodeToVec_canonical hu, decodeAll_ok.mpr ⟨rfl, ?_, ?_⟩⟩
    · exact Value.uniqueKeys_of_keysIncreasing (Value.keysIncreasing_canonical hu)
    · rw [Value.nesting_canonical]
      exact hn
  · obtain ⟨rfl, hu, -⟩ := decodeAll_ok.mp hx
    have hcanon := Value.keysIncreasing_canonical hu
    refine ⟨rfl, v.canonical.render, v.canonical, Value.encodeToVec_canonical hu, ⟨fun h => ?_, fun h => ?_⟩, rfl,
      v.reordered_canonical⟩
    · have heq := render_injective (Value.uniqueKeys_of_keysIncreasing hcanon) hu h
      exact heq ▸ hcanon
    · rw [Value.canonical_eq_self h]
  · obtain ⟨rfl, hu, -⟩ := decodeAll_ok.mp hx
    obtain ⟨rfl, hu', -⟩ := decodeAll_ok.mp hy
    rw [Value.encodeToVec_canonical hu] at hv
    rw [Value.encodeToVec_canonical hu'] at hw
    have hsame : v.canonical = w.canonical := by
      refine render_injective (Value.uniqueKeys_of_keysIncreasing (Value.keysIncreasing_canonical hu))
        (Value.uniqueKeys_of_keysIncreasing (Value.keysIncreasing_canonical hu')) ?_
      rw [Option.some.inj hv, Option.some.inj hw]
    exact ⟨rfl, rfl, v.reordered_canonical.trans (hsame ▸ w.reordered_canonical.symm)⟩

/-- The dictionary of `d` and `c`, in this order. -/
def outOfOrder : Value :=
  .dict [(⟨[ascii 'd'], by decide⟩, .int 0), (⟨[ascii 'c'], by decide⟩, .list [.int (-7)])]

/-- A dictionary out of order is decoded and encoded to another text, which is decoded to the dictionary in order. -/
theorem bencode_round_trip_outOfOrder :
    (∃ out, encodeToVec outOfOrder = some out ∧ decodeAll out = .ok outOfOrder.canonical) ∧
      ∃ out w, encodeToVec outOfOrder = some out ∧ (out = outOfOrder.render ↔ outOfOrder.KeysIncreasing) ∧ out = w.render ∧
        outOfOrder.Reordered w :=
  have hu : outOfOrder.UniqueKeys := ⟨by decide, trivial, ⟨trivial, trivial⟩, trivial⟩
  ⟨bencode_round_trip.1 outOfOrder hu (by decide),
    (bencode_round_trip.2.1 outOfOrder.render outOfOrder (decodeAll_ok.mpr ⟨rfl, hu, by decide⟩)).2⟩

end Bencode

/-!
## The peer wire codec

The decoder undoes the encoder and the encoder the decoder, and what `reader_task` decodes of a stream does not depend on how the
stream was cut.
-/

section

open Reader (decodeBuffer)

/-- First, an encoded message within the limits is read back, and exactly its bytes are consumed; a message of unknown kind must
not carry the id of a known one. Second, what is read encodes to the bytes it was read from. Third, the reader ends as if all bytes
had come at once. Fourth, of encoded messages and a part of one more it reads the messages and keeps the part. Fifth, it stops at
the first frame the decoder refuses, with the messages before it. -/
theorem wire_codec :
    (∀ (m : Message) (tail : List UInt8), m.WithinLimits → m.Proper → tryDecode (m.encode ++ tail) = .ok (some (m, tail))) ∧
    (∀ (buf rest : List UInt8) (m : Message), tryDecode buf = .ok (some (m, rest)) → buf = m.encode ++ rest) ∧
    (∀ chunks : List (List UInt8), readerTask chunks = decodeBuffer tryDecode chunks.flatten) ∧
    (∀ (ms : List Message) (m : Message) (n : Nat) (chunks : List (List UInt8)),
      (∀ x ∈ m :: ms, x.WithinLimits ∧ x.Proper) → n < m.encode.length →
      chunks.flatten = (ms.map Message.encode).flatten ++ m.encode.take n →
      readerTask chunks = ⟨ms, .ok (m.encode.take n)⟩) ∧
    ∀ (ms : List Message) (bad behind : List UInt8) (e : MessageError) (chunks : List (List UInt8)),
      (∀ x ∈ ms, x.WithinLimits ∧ x.Proper) → tryDecode bad = .error e →
      chunks.flatten = (ms.map Message.encode).flatten ++ (bad ++ behind) →
      readerTask chunks = ⟨ms, .error e⟩ := by
  have hwhole : ∀ chunks : List (List UInt8), readerTask chunks = decodeBuffer tryDecode chunks.flatten :=
    fun chunks => Reader.feedAll_flatten tryDecode_framed rfl chunks
  have hframes : ∀ (ms : List Message) (tail : List UInt8), (∀ x ∈ ms, x.WithinLimits ∧ x.Proper) →
      decodeBuffer tryDecode ((ms.map Message.encode).flatten ++ tail) =
        ⟨ms ++ (decodeBuffer tryDecode tail).messages, (decodeBuffer tryDecode tail).status⟩ := by
    intro ms tail hms
    exact Reader.decodeBuffer_frames tryDecode_framed (fun m hm tail => tryDecode_encode (hms m hm).1 (hms m hm).2 tail) tail
  refine ⟨fun m tail hl hp => tryDecode_encode hl hp tail, fun buf rest m h => encode_of_tryDecode h, hwhole, ?_, ?_⟩
  · intro ms m n chunks hms hn hchunks
    obtain ⟨⟨hl, hp⟩, hms⟩ := List.forall_mem_cons.mp hms
    rw [hwhole, hchunks, hframes ms _ hms, Reader.decodeBuffer_of_none (tryDecode_part hl hp hn), List.append_nil]
  · intro ms bad behind e chunks hms hbad hchunks
    have herr := Reader.decodeBuffer_of_error (tryDecode_framed.error_append behind hbad)
    rw [hwhole, hchunks, hframes ms _ hms, herr, List.append_nil]

/-- `Interested` and a part of `Unchoke` in two chunks, and a `Choke` with a body behind them. -/
theorem wire_codec_cut :
    tryDecode (Message.interested.encode ++ [7]) = .ok (some (.interested, [7])) ∧
      [0, 0, 0, 1, 2, 7] = Message.interested.encode ++ [7] ∧
      readerTask [[0, 0, 0, 1], [2, 0, 0]] = ⟨[.interested], .ok [0, 0]⟩ ∧
      readerTask [[0, 0, 0, 1], [2, 0, 0], [0, 2, 0, 0]] = ⟨[.interested], .error (.truncated 0 0 1)⟩ :=
  have hboth : ∀ x ∈ [Message.unchoke, .interested], x.WithinLimits ∧ x.Proper := by
    intro x hx
    rw [List.mem_pair] at hx
    rcases hx with rfl | rfl <;> exact ⟨trivial, trivial⟩
  ⟨wire_codec.1 .interested [7] trivial trivial, wire_codec.2.1 [0, 0, 0, 1, 2, 7] [7] .interested (by decide),
    wire_codec.2.2.2.1 [.interested] .unchoke 2 [[0, 0, 0, 1], [2, 0, 0]] hboth (by decide) (by decide),
    wire_codec.2.2.2.2 [.interested] [0, 0, 0, 2, 0] [0] (.truncated 0 0 1) [[0, 0, 0, 1], [2, 0, 0], [0, 2, 0, 0]]
      (fun x hx => hboth x (List.mem_cons_of_mem _ hx)) (by decide) (by decide)⟩

/-- A message of unknown kind that carries the id of `Choke` is read as one. -/
theorem wire_codec_unknownChoke :
    ¬ ∀ (m : Message) (tail : List UInt8), m.WithinLimits → tryDecode (m.encode ++ tail) = .ok (some (m, tail)) := by
  intro h
  have hlimits : (Message.unknown 0 []).WithinLimits := by
    unfold Message.WithinLimits
    decide
  exact absurd (h (.unknown 0 []) [] hlimits) (by decide)

end

/-!
## The round trip of peer exchange

A message is parsed as what it was built of, but for the flow labels and the scopes of IPv6.
-/

namespace Pex

/-- A message is always built and always parsed: the addresses of IPv4 and then those of IPv6 come back, in their order and with their flags,
of the first fifty valid ones; those of IPv6 come back without flow labels and scopes. What was received builds the same message. -/
theorem pex_round_trip (added : List (SocketAddr × UInt8)) (dropped : List SocketAddr) :
    ∃ payload parsed, buildUtPex added dropped = some payload ∧ parseUtPexFull payload = some parsed ∧
      parsed.added =
        (((added.filter fun e => validPexEndpoint e.1).take 50).filter (fun e => e.1.isIpv6 = false) ++
          ((added.filter fun e => validPexEndpoint e.1).take 50).filter (fun e => e.1.isIpv6 = true)).map (fun e => (e.1.bare, e.2)) ∧
      parsed.dropped =
        (((dropped.filter validPexEndpoint).take 50).filter (fun addr => addr.isIpv6 = false) ++
          ((dropped.filter validPexEndpoint).take 50).filter (fun addr => addr.isIpv6 = true)).map SocketAddr.bare ∧
      buildUtPex parsed.added parsed.dropped = some payload := by
  obtain ⟨payload, hbuilt, hparsed⟩ := buildUtPex_parse added dropped
  obtain ⟨hadded, hdropped⟩ := sent_received added dropped
  refine ⟨payload, received (sentAdded added) (sentDropped dropped), hbuilt, hparsed, rfl, rfl, ?_⟩
  rw [buildUtPex_eq, hadded, hdropped, texts_received, ← buildUtPex_eq]
  exact hbuilt

/-- A link-local address of IPv6, on the interface 2. -/
def linkLocal : SocketAddr := .v6 ⟨[0xfe, 0x80, 0, 0, 0, 0, 0, 0, 0, 0, 0, 0, 0, 0, 0, 1], rfl⟩ 6881 0 2

/-- An address with a scope comes back without it, so it is not the one that was added. -/
theorem pex_loses_scope :
    validPexEndpoint linkLocal = true ∧
      ¬ ∃ payload, buildUtPex [(linkLocal, 1)] [] = some payload ∧
        (parseUtPexFull payload).map UtPex.added = some [(linkLocal, 1)] := by
  refine ⟨by decide, ?_⟩
  rintro ⟨payload, hbuilt, hparsed⟩
  obtain ⟨payload', hbuilt', hparsed'⟩ := buildUtPex_parse [(linkLocal, 1)] []
  rw [hbuilt] at hbuilt'
  cases hbuilt'
  rw [hparsed'] at hparsed
  exact absurd (Option.some.inj hparsed) (by decide)

end Pex

end Risuko

/-!
## No message is left behind in an encrypted connection

Between two batches everything that was taken from the channels is with the transport, encrypted in order, as long as the transport
never stalls in the middle of a batch. When it does, `write_all` is over all the same, and the rest of the batch waits for the next
message.
-/

namespace Risuko

namespace WriterTask

/-- The states at the start of the task: the half is new, but for an extension handshake that may have been written through it. -/
def Initial (cipher : Rc4) (s : WriterTask) : Prop :=
  ∃ polls hello writer, Rc4WriteHalf.writeAll polls (.new cipher) hello = some writer ∧ s = start writer hello

/-- The states a task can reach, whatever the holders of its channels do and whatever the transport answers. -/
def Reachable (cipher : Rc4) : WriterTask → Prop := Reach (Initial cipher) (fun s s' => ∃ e, s.step e = some s')

/-- The states it can reach when the transport never stalls on a batch. -/
def UnstalledRun (cipher : Rc4) : WriterTask → Prop := Reach (Initial cipher) (fun s s' => ∃ e, s.Unstalled e ∧ s.step e = some s')

/-- As long as no write stalls, what is on the wire is what was taken, encrypted in order. -/
theorem UnstalledRun.ordered {cipher : Rc4} {s : WriterTask} (h : UnstalledRun cipher s) : s.Ordered cipher := by
  refine Reach.invariant ?_ ?_ h
  · rintro s ⟨polls, hello, writer, hw, rfl⟩
    exact ordered_start ((Rc4WriteHalf.sent_new cipher).writeAll hw)
  · rintro s s' hs ⟨e, hu, hstep⟩
    exact hs.step hu hstep

/-- In every run on whose batches the transport does not stall, a task that has finished a batch and waits has handed every byte of
every message it took to the transport, encrypted in order, and nothing is pending. -/
theorem nothing_left_behind (cipher : Rc4) (s : WriterTask) (h : UnstalledRun cipher s) (hwaiting : s.phase = .waiting)
    (hbatch : 0 < s.batches) : s.writer.inner = (cipher.applyKeystream s.taken).1 ∧ s.writer.undelivered = [] := by
  have hordered := h.ordered
  have hempty := hordered.drained (.inl hwaiting) hbatch
  obtain ⟨plain, hsent, hsplit⟩ := hordered.sent (fun reason he => by rw [hwaiting] at he; cases he)
  have hplain : plain = s.taken := by
    unfold unwritten at hsplit
    rw [hwaiting] at hsplit
    rw [← hsplit, List.append_nil]
  have hbytes := hsent.bytes
  rw [hempty, List.append_nil, hplain] at hbytes
  exact ⟨hbytes, hempty⟩

/-- A cipher before its first byte. -/
def plainCipher : Rc4 := ⟨id, 0, 0⟩

/-- A task with nothing written before it. -/
def freshTask : WriterTask := start (.new plainCipher) []

theorem initial_freshTask : Initial plainCipher freshTask := ⟨[], [], .new plainCipher, rfl, rfl⟩

/-- One message is taken and written while the transport gives the answers. -/
def oneMessage (answers : List Answer) : List WriterEvent :=
  [.sendCommand (.send .interested), .run, .run, .run, .poll answers]

/-- One message is delivered before the task waits again. -/
theorem nothing_left_behind_one_message :
    ∃ s : WriterTask, s.taken = Message.interested.encode ∧ s.phase = .waiting ∧
      s.writer.inner = (plainCipher.applyKeystream s.taken).1 ∧ s.writer.undelivered = [] := by
  let s := (runActions (fun s e => if Unstalled s e then s.step e else none) freshTask (oneMessage [.took 2, .took 3])).getD freshTask
  have hrun : runActions (fun s e => if Unstalled s e then s.step e else none) freshTask (oneMessage [.took 2, .took 3]) = some s := rfl
  exact ⟨s, rfl, rfl, nothing_left_behind plainCipher s (Reach.runGuarded hrun (.init initial_freshTask)) rfl (by decide)⟩

/-- The transport takes two of the five bytes and is full: the task waits for its next command, and three bytes are pending. -/
theorem message_left_behind :
    ¬ ∀ (cipher : Rc4) (s : WriterTask), Reachable cipher s → s.phase = .waiting → 0 < s.batches →
      s.writer.inner = (cipher.applyKeystream s.taken).1 ∧ s.writer.undelivered = [] := by
  intro hall
  let s := (runActions step freshTask (oneMessage [.took 2, .pending])).getD freshTask
  have hrun : runActions step freshTask (oneMessage [.took 2, .pending]) = some s := rfl
  have hleft := (hall plainCipher s (Reach.runActions hrun (.init initial_freshTask)) rfl (by decide)).2
  have hlength : s.writer.undelivered.length = 3 := rfl
  rw [hleft] at hlength
  cases hlength

end WriterTask

end Risuko
