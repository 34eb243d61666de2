import Risuko.Lib.Keystream
import Risuko.Wire.Message

/-!
# The writer of an encrypted peer connection

`connection.rs`: the half of a connection that encrypts what is written to it (`Rc4WriteHalf`), and the task that takes messages from
two channels and writes them in batches (`writer_task`). What the transport underneath answers to each call is a list that goes with
each poll; when the list ends the transport is not ready. A step of the task is what it does between two looks at its channels, or one
poll of its write.
-/

/-!
## RC4

The cipher of an encrypted peer connection: a permutation of the bytes with two indices into it. Indices are bytes, so that their sums
wrap by themselves.
-/

namespace Risuko

structure Rc4 where
  s : UInt8 → UInt8
  i : UInt8
  j : UInt8

namespace Rc4

/-- `<[T]>::swap`. -/
def swap (s : UInt8 → UInt8) (i j : UInt8) : UInt8 → UInt8 := fun k => if k = i then s j else if k = j then s i else s k

/-- One byte of keystream. -/
def next (c : Rc4) : UInt8 × Rc4 :=
  let i := c.i + 1
  let j := c.j + c.s i
  let s := swap c.s i j
  (s (s i + s j), { s := s, i := i, j := j })

/-- `apply_keystream`: the bytes, and the cipher after them. -/
def applyKeystream (c : Rc4) (data : List UInt8) : List UInt8 × Rc4 := (Keystream.apply next c data, Keystream.after next c data)

end Rc4

end Risuko

namespace Risuko

/-! ## Writing through the cipher -/

/-- An answer of the transport to one `poll_write`. -/
inductive Answer
  | took (n : Nat)
  | pending
  | failed (e : String)
  deriving DecidableEq

/-- `Poll<io::Result<T>>`. -/
inductive PollResult (α : Type) where
  | ready (a : α)
  | pending
  | failed (e : String)
  deriving DecidableEq

/-- The half with what the transport has taken so far. -/
structure Rc4WriteHalf where
  inner : List UInt8
  cipher : Rc4
  pending : List UInt8
  pendingOff : Nat

namespace Rc4WriteHalf

def new (cipher : Rc4) : Rc4WriteHalf where
  inner := []
  cipher := cipher
  pending := []
  pendingOff := 0

/-- The encrypted bytes that the transport has not taken. -/
def undelivered (w : Rc4WriteHalf) : List UInt8 := w.pending.drop w.pendingOff

/-- The end of `poll_drain`. -/
def clear (w : Rc4WriteHalf) : Rc4WriteHalf := { w with pending := [], pendingOff := 0 }

/-- The transport takes `n` of the bytes it is offered, or all when there are fewer. -/
def hand (w : Rc4WriteHalf) (n : Nat) : Rc4WriteHalf :=
  { w with
    inner := w.inner ++ w.undelivered.take n
    pendingOff := w.pendingOff + min n w.undelivered.length }

/-- `poll_drain`, with the answers that are left. -/
def pollDrain : List Answer → Rc4WriteHalf → PollResult Unit × Rc4WriteHalf × List Answer
  | answers, w =>
    if w.pendingOff < w.pending.length then
      match answers with
      | [] => (.pending, w, [])
      | .took 0 :: rest => (.failed "rc4 write zero", w, rest)
      | .took (n + 1) :: rest => pollDrain rest (w.hand (n + 1))
      | .failed e :: rest => (.failed e, w, rest)
      | .pending :: rest => (.pending, w, rest)
    else (.ready (), w.clear, answers)

/-- Encrypt a buffer into the pending bytes. -/
def load (w : Rc4WriteHalf) (buf : List UInt8) : Rc4WriteHalf :=
  { w with
    cipher := (w.cipher.applyKeystream buf).2
    pending := (w.cipher.applyKeystream buf).1
    pendingOff := 0 }

/-- `poll_write`. -/
def pollWrite (answers : List Answer) (w : Rc4WriteHalf) (buf : List UInt8) : PollResult Nat × Rc4WriteHalf × List Answer :=
  match pollDrain answers w with
  | (.ready _, w, answers) =>
    if buf.isEmpty then (.ready 0, w, answers)
    else
      match pollDrain answers (w.load buf) with
      | (.failed e, w, answers) => (.failed e, w, answers)
      | (.ready _, w, answers) => (.ready buf.length, w, answers)
      | (.pending, w, answers) => (.ready buf.length, w, answers)
  | (.failed e, w, answers) => (.failed e, w, answers)
  | (.pending, w, answers) => (.pending, w, answers)

/-- One poll of `write_all`, with the bytes it has yet to write. The fuel is the length of the buffer. -/
def pollWriteAll : Nat → List Answer → Rc4WriteHalf → List UInt8 → PollResult Unit × Rc4WriteHalf × List UInt8
  | _, _, w, [] => (.ready (), w, [])
  | 0, _, w, buf => (.pending, w, buf)
  | fuel + 1, answers, w, buf =>
    match pollWrite answers w buf with
    | (.ready 0, w, _) => (.failed "failed to write whole buffer", w, buf)
    | (.ready n, w, answers) => pollWriteAll fuel answers w (buf.drop n)
    | (.failed e, w, _) => (.failed e, w, buf)
    | (.pending, w, _) => (.pending, w, buf)

/-- `write_all` over any number of polls: the half when it is done. -/
def writeAll : List (List Answer) → Rc4WriteHalf → List UInt8 → Option Rc4WriteHalf
  | _, w, [] => some w
  | [], _, _ => none
  | answers :: polls, w, buf =>
    match pollWriteAll buf.length answers w buf with
    | (.ready _, w, _) => some w
    | (.pending, w, buf) => writeAll polls w buf
    | (.failed _, _, _) => none

end Rc4WriteHalf

/-! ## The task -/

inductive PeerCommand
  | send (msg : Message)
  | disconnect

/-- The batches are closed once they are this long. -/
def maxBatchBytes : Nat := 256 * 1024

/-- Where the task is: at its `select!`, in one of the loops that fill the batch, in `write_all`, in the last flush, or over. -/
inductive WriterPhase
  | waiting
  | commands
  | pieces
  | writing (rest : List UInt8)
  | flushing
  | ended (reason : String)
  deriving DecidableEq

/-- The task with its two channels. The channels are closed once their senders are gone. The last two fields are none of the program:
the bytes of all messages taken so far, after those written before the task began, and the batches written. -/
structure WriterTask where
  phase : WriterPhase
  rx : List PeerCommand
  rxClosed : Bool
  pieceRx : List Message
  pieceRxClosed : Bool
  batch : List UInt8
  disconnect : Bool
  pieceOpen : Bool
  writer : Rc4WriteHalf
  taken : List UInt8
  batches : Nat

/-- What the holders of the channels do, and what the task does next. -/
inductive WriterEvent
  | sendCommand (cmd : PeerCommand)
  | sendPiece (msg : Message)
  | closeCommands
  | closePieces
  | run
  | poll (answers : List Answer)
  | timeout

namespace WriterTask

/-- A task that starts after `hello` was written through its half. -/
def start (writer : Rc4WriteHalf) (hello : List UInt8) : WriterTask where
  phase := .waiting
  rx := []
  rxClosed := false
  pieceRx := []
  pieceRxClosed := false
  batch := []
  disconnect := false
  pieceOpen := true
  writer := writer
  taken := hello
  batches := 0

/-- Put a message into the batch. -/
def encodeInto (s : WriterTask) (msg : Message) : WriterTask :=
  { s with
    batch := s.batch ++ msg.encode
    taken := s.taken ++ msg.encode }

/-- A command is taken from its channel. -/
def takeCommand (s : WriterTask) (cmd : PeerCommand) (rest : List PeerCommand) : WriterTask :=
  match cmd with
  | .send msg => { s with rx := rest }.encodeInto msg
  | .disconnect => { s with rx := rest, disconnect := true }

/-- The `select!` at the top of the loop: commands come first. -/
def select (s : WriterTask) : Option WriterTask :=
  let s := { s with batch := [], disconnect := false }
  match s.rx, s.rxClosed with
  | cmd :: rest, _ => some { s.takeCommand cmd rest with phase := .commands }
  | [], true => some { s with phase := .ended "command channel closed" }
  | [], false =>
    if s.pieceOpen then
      match s.pieceRx, s.pieceRxClosed with
      | msg :: rest, _ => some { { s with pieceRx := rest }.encodeInto msg with phase := .commands }
      | [], true => some { s with pieceOpen := false, phase := .commands }
      | [], false => none
    else none

/-- One turn of the loop over the commands. -/
def tryCommand (s : WriterTask) : WriterTask :=
  if !s.disconnect && s.batch.length < maxBatchBytes then
    match s.rx with
    | cmd :: rest => s.takeCommand cmd rest
    | [] => { s with phase := .pieces }
  else { s with phase := .pieces }

/-- The batch is closed: it is written when it has something in it. -/
def startWrite (s : WriterTask) : WriterTask :=
  if !s.batch.isEmpty then { s with phase := .writing s.batch }
  else if s.disconnect then { s with phase := .flushing }
  else { s with phase := .waiting }

/-- One turn of the loop over the pieces. -/
def tryPiece (s : WriterTask) : WriterTask :=
  if !s.disconnect && s.pieceOpen && s.batch.length < maxBatchBytes then
    match s.pieceRx, s.pieceRxClosed with
    | msg :: rest, _ => { s with pieceRx := rest }.encodeInto msg
    | [], false => s.startWrite
    | [], true => { s with pieceOpen := false }.startWrite
  else s.startWrite

/-- One poll of `write_all`. -/
def pollWriting (s : WriterTask) (rest : List UInt8) (answers : List Answer) : WriterTask :=
  match Rc4WriteHalf.pollWriteAll rest.length answers s.writer rest with
  | (.ready _, writer, _) =>
    { s with
      writer := writer
      batches := s.batches + 1
      phase := if s.disconnect then .flushing else .waiting }
  | (.pending, writer, rest) => { s with writer := writer, phase := .writing rest }
  | (.failed e, writer, _) => { s with writer := writer, phase := .ended ("write: " ++ e) }

/-- One poll of the flush before a disconnect, whose outcome is not looked at. The answer after the last of the drain is that of the
transport's own flush. -/
def pollFlushing (s : WriterTask) (answers : List Answer) : WriterTask :=
  match Rc4WriteHalf.pollDrain answers s.writer with
  | (.pending, writer, _) => { s with writer := writer }
  | (.ready _, writer, []) => { s with writer := writer }
  | (.ready _, writer, .pending :: _) => { s with writer := writer }
  | (_, writer, _) => { s with writer := writer, phase := .ended "local disconnect" }

def step (s : WriterTask) : WriterEvent → Option WriterTask
  | .sendCommand cmd => if s.rxClosed then none else some { s with rx := s.rx ++ [cmd] }
  | .sendPiece msg => if s.pieceRxClosed then none else some { s with pieceRx := s.pieceRx ++ [msg] }
  | .closeCommands => some { s with rxClosed := true }
  | .closePieces => some { s with pieceRxClosed := true }
  | .run =>
    match s.phase with
    | .waiting => s.select
    | .commands => some s.tryCommand
    | .pieces => some s.tryPiece
    | _ => none
  | .poll answers =>
    match s.phase with
    | .writing rest => some (s.pollWriting rest answers)
    | .flushing => some (s.pollFlushing answers)
    | _ => none
  | .timeout =>
    match s.phase with
    | .writing _ => some { s with phase := .ended "write timeout" }
    | .flushing => some { s with phase := .ended "local disconnect" }
    | _ => none

end WriterTask

end Risuko
