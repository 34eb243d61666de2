import Risuko.Torrent.Scheduler

/-!
# Uploads to a peer

The part of `torrent.rs` that answers the requests of one peer: `admit_upload_request` and `cancel_upload_request`, the rejects
that a choke or a cancel owes, the tasks of `serve_upload`, and the budget of bytes a choked peer may have of a piece.

A task runs from one await point to the next in one step, and so does the handler of a message. Whether the queue of the writer
has room is an argument of whatever tries to put a message there. `log` is a ghost, newest entry first, that no function reads:
the requests admitted and what became of them.
-/

namespace Risuko

def maxPendingUploadBytes : Nat := 8 * 1024 * 1024

def maxPendingUploadRequests : Nat := maxPendingUploadBytes / (16 * 1024)

def maxRequestLen : Nat := 128 * 1024

/-- The requests that wait for an answer, what the tasks alive hold of the limits, and the rejects still owed. -/
structure PendingUploads where
  keys : List Request
  live : Nat
  liveBytes : Nat
  owed : List Request

namespace PendingUploads

def empty : PendingUploads := ⟨[], 0, 0, []⟩

def contains (p : PendingUploads) (key : Request) : Bool := p.keys.contains key

def insert (p : PendingUploads) (key : Request) : PendingUploads × Bool :=
  if p.contains key then (p, false)
  else
    ({ p with
        keys := key :: p.keys
        live := p.live + 1
        liveBytes := p.liveBytes + key.2.2 }, true)

def full (p : PendingUploads) (key : Request) : Bool :=
  decide (p.live ≥ maxPendingUploadRequests) || decide (p.liveBytes + key.2.2 > maxPendingUploadBytes)

/-- `admit`. -/
def admitRequest (p : PendingUploads) (key : Request) : PendingUploads × Bool :=
  if !p.contains key && !p.full key then p.insert key else (p, false)

def reserveDeferred (p : PendingUploads) : PendingUploads × Bool :=
  if p.live ≥ maxPendingUploadRequests then (p, false) else ({ p with live := p.live + 1 }, true)

def remove (p : PendingUploads) (key : Request) : PendingUploads × Bool :=
  ({ p with keys := p.keys.erase key }, p.contains key)

/-- `Drop for LiveUpload`. -/
def dropLive (p : PendingUploads) (bytes : Nat) : PendingUploads :=
  { p with
    live := p.live - 1
    liveBytes := p.liveBytes - bytes }

end PendingUploads

/-- What `serve_upload` waits for: the rate limiter, room in the lane of the writer, or the disk. -/
inductive UploadPhase
  | limited
  | reserving
  | reading
  deriving DecidableEq

/-- A task of `serve_upload`. Its `LiveUpload` is for the bytes of its request. -/
structure UploadTask where
  key : Request
  phase : UploadPhase
  deriving DecidableEq

/-- A task of `send_reliably_holding`: it waits for room to send a reject, with or without a `LiveUpload` of no bytes. -/
structure DeferredReject where
  key : Request
  holdsLive : Bool
  deriving DecidableEq

/-- What becomes of a request: it is admitted, while the peer is choked (`metered`) or not; a piece or a reject for it is put in the
queue of the writer, at once or (`late`) after it had to wait for room; its reject is left to wait; its reject is given up and the
connection with it; the peer has cancelled it; a choke has dropped it without an answer; or it is refused. -/
inductive UploadEvent
  | admitted (key : Request) (metered : Bool)
  | piece (key : Request)
  | reject (key : Request)
  | late (key : Request)
  | postponed (key : Request)
  | gaveUp (key : Request)
  | cancelled (key : Request)
  | dropped (key : Request)
  | refused (key : Request)
  deriving DecidableEq

/-- What `Peer` keeps for its uploads, with the tasks that work for it. -/
structure UploadPeer where
  amChoking : Bool
  supportsFast : Bool
  sentAllowedFast : List Nat
  fastServed : OrdMap Nat Nat
  pending : PendingUploads
  tasks : List UploadTask
  deferred : List DeferredReject
  aborted : Bool
  log : List UploadEvent

namespace UploadPeer

/-- `Peer::connected`, after `send_allowed_fast`. -/
def connected (supportsFast : Bool) (sentAllowedFast : List Nat) : UploadPeer where
  amChoking := true
  supportsFast := supportsFast
  sentAllowedFast := sentAllowedFast
  fastServed := .empty
  pending := .empty
  tasks := []
  deferred := []
  aborted := false
  log := []

def note (p : UploadPeer) (e : UploadEvent) : UploadPeer := { p with log := e :: p.log }

/-- `send_fast_reject`: nothing is kept of a reject that finds the queue full. -/
def sendFastReject (p : UploadPeer) (key : Request) (room : Bool) : UploadPeer :=
  if p.supportsFast && room then p.note (.refused key) else p

/-- The bytes of a piece that the peer was admitted while it was choked. -/
def served (p : UploadPeer) (index : Nat) : Nat := (p.fastServed.get? index).getD 0

section Admit

variable {l : Lengths}

/-- The checks of `admit_upload_request` before the limits. -/
def fits (p : UploadPeer) (t : PieceTracker l) (vpi : ValidPieceIndex l) (key : Request) : Bool :=
  let metered := p.amChoking
  let fastAllowed := p.supportsFast && p.sentAllowedFast.contains key.1
  let pieceLen := l.pieceLengthOf vpi
  t.hasLocal vpi && !(metered && !fastAllowed) && decide (key.2.2 ≠ 0) && decide (key.2.2 ≤ maxRequestLen) &&
    decide (key.2.1 + key.2.2 ≤ pieceLen) && !(metered && decide (p.served key.1 + key.2.2 > pieceLen))

/-- The part of `admit_upload_request` for a request that passed the checks: it is charged to the piece if the peer is choked. -/
def charge (p : UploadPeer) (key : Request) : UploadPeer :=
  let p := p.note (.admitted key p.amChoking)
  if p.amChoking then { p with fastServed := p.fastServed.insert key.1 (p.served key.1 + key.2.2) } else p

/-- `admit_upload_request`: the answer is the offset and the length of the piece. -/
def admitUploadRequest (p : UploadPeer) (t : PieceTracker l) (key : Request) (room : Bool) : UploadPeer × Option (Nat × Nat) :=
  if p.pending.contains key then (p, none)
  else
    match l.validatePiece key.1 with
    | .error _ => (p.sendFastReject key room, none)
    | .ok vpi =>
      if p.fits t vpi key && (p.pending.admitRequest key).2 then
        (charge { p with pending := (p.pending.admitRequest key).1 } key, some (l.pieceOffset vpi, l.pieceLengthOf vpi))
      else (p.sendFastReject key room, none)

/-- The handler of `Message::Request`: a task is spawned for what is admitted. -/
def request (p : UploadPeer) (t : PieceTracker l) (key : Request) (room : Bool) : UploadPeer :=
  match p.admitUploadRequest t key room with
  | (p, none) => p
  | (p, some _) => { p with tasks := p.tasks ++ [⟨key, .limited⟩] }

end Admit

/-! ## Rejects that are owed -/

/-- `send_cancel_reject`. -/
def sendCancelReject (p : UploadPeer) (key : Request) (room : Bool) : UploadPeer × Bool :=
  if room then (p.note (.reject key), true)
  else if (p.pending.reserveDeferred).2 then
    (note { p with pending := p.pending.reserveDeferred.1, deferred := p.deferred ++ [⟨key, true⟩] } (.postponed key), true)
  else if p.pending.owed.length ≥ maxPendingUploadRequests then (p.note (.gaveUp key), false)
  else (note { p with pending := { p.pending with owed := p.pending.owed ++ [key] } } (.postponed key), true)

/-- The part of `cancel_upload_request` about the budget: the length is given back to the piece. -/
def refund (p : UploadPeer) (key : Request) : UploadPeer :=
  match p.fastServed.get? key.1 with
  | none => p
  | some served => { p with fastServed := p.fastServed.insert key.1 (served - key.2.2) }

/-- `cancel_upload_request`. -/
def cancelUploadRequest (p : UploadPeer) (key : Request) (room : Bool) : UploadPeer :=
  if (p.pending.remove key).2 then
    let p := (note { p with pending := (p.pending.remove key).1 } (.cancelled key)).refund key
    if p.supportsFast then
      let (p, answered) := p.sendCancelReject key room
      if answered then p else { p with aborted := true }
    else p
  else p

/-- `flush_owed_rejects`, when the queue has room for `room` messages. -/
def flushOwedRejects (p : UploadPeer) (room : Nat) : UploadPeer :=
  { p with
    pending := { p.pending with owed := p.pending.owed.drop room }
    log := (p.pending.owed.take room).reverse.map .late ++ p.log }

/-- `send_owed_reject`. -/
def sendOwedReject (p : UploadPeer) (key : Request) (room : Bool) : UploadPeer :=
  if room then p.note (.reject key)
  else note { p with deferred := p.deferred ++ [⟨key, false⟩] } (.postponed key)

/-- Whether `drop_choked_uploads` keeps a request. -/
def keepsChoked (p : UploadPeer) (key : Request) : Bool := p.supportsFast && p.sentAllowedFast.contains key.1

/-- What `drop_choked_uploads` does with a request it drops. -/
def dropChoked (room : Request → Bool) (p : UploadPeer) (key : Request) : UploadPeer :=
  if p.supportsFast then p.sendOwedReject key (room key) else p.note (.dropped key)

/-- `drop_choked_uploads`. -/
def dropChokedUploads (p : UploadPeer) (room : Request → Bool) : UploadPeer :=
  (p.pending.keys.filter (fun key => !p.keepsChoked key)).foldl (dropChoked room)
    { p with pending := { p.pending with keys := p.pending.keys.filter p.keepsChoked } }

/-- `set_choked`; `queued` says that the queue has room for the message. -/
def setChoked (p : UploadPeer) (choke queued : Bool) (room : Request → Bool) : UploadPeer :=
  if p.amChoking != choke && queued then
    let p := { p with amChoking := choke }
    if choke then p.dropChokedUploads room else p
  else p

/-! ## The tasks -/

/-- A task of `serve_upload` returns, and its `LiveUpload` is dropped. -/
def endTask (p : UploadPeer) (i : Nat) (task : UploadTask) : UploadPeer :=
  { p with
    tasks := p.tasks.eraseIdx i
    pending := p.pending.dropLive task.key.2.2 }

def setPhase (p : UploadPeer) (i : Nat) (task : UploadTask) (phase : UploadPhase) : UploadPeer :=
  { p with tasks := p.tasks.set i { task with phase := phase } }

def forget (p : UploadPeer) (key : Request) : UploadPeer := { p with pending := (p.pending.remove key).1 }

/-- The `i`th task of `serve_upload` runs to its next await point. `reserved` says that the writer is alive and has given the task
a permit, `ok` that the disk has given the data. -/
def resume (p : UploadPeer) (i : Nat) (reserved ok : Bool) : UploadPeer :=
  match p.tasks[i]? with
  | none => p
  | some task =>
    match task.phase with
    | .limited => if p.pending.contains task.key then p.setPhase i task .reserving else p.endTask i task
    | .reserving =>
      if !reserved then (p.forget task.key).endTask i task
      else if p.pending.contains task.key then p.setPhase i task .reading
      else p.endTask i task
    | .reading =>
      if !(p.pending.remove task.key).2 then p.endTask i task
      else if ok then ((p.forget task.key).note (.piece task.key)).endTask i task
      else if p.supportsFast then ((p.forget task.key).note (.reject task.key)).endTask i task
      else (p.forget task.key).endTask i task

/-- A deferred reject finds room, and the `LiveUpload` it holds is dropped. -/
def deferredSent (p : UploadPeer) (i : Nat) : UploadPeer :=
  match p.deferred[i]? with
  | none => p
  | some d =>
    { p with
      deferred := p.deferred.eraseIdx i
      pending := if d.holdsLive then p.pending.dropLive 0 else p.pending }.note (.late d.key)

end UploadPeer

/-- The steps on the uploads of a peer. -/
inductive UploadOp (l : Lengths)
  | request (t : PieceTracker l) (key : Request) (room : Bool)
  | cancel (key : Request) (room : Bool)
  | setChoked (choke queued : Bool) (room : Request → Bool)
  | flush (room : Nat)
  | resume (i : Nat) (reserved ok : Bool)
  | deferredSent (i : Nat)

namespace UploadOp

variable {l : Lengths}

def apply (p : UploadPeer) : UploadOp l → UploadPeer
  | request t key room => p.request t key room
  | cancel key room => p.cancelUploadRequest key room
  | setChoked choke queued room => p.setChoked choke queued room
  | flush room => p.flushOwedRejects room
  | resume i reserved ok => p.resume i reserved ok
  | deferredSent i => p.deferredSent i

/-- No task finds the writer gone. -/
def WriterAlive : UploadOp l → Prop
  | resume _ reserved _ => reserved = true
  | _ => True

end UploadOp

/-! ## What the log says -/

/-- Whether the last request admitted for a key has no answer yet, by the events that `answers` counts; nothing if two requests
were admitted with no answer between them, or an answer was given to none. -/
def openBy (answers : UploadEvent → Bool) (key : Request) : List UploadEvent → Option Bool
  | [] => some false
  | e :: log =>
    match openBy answers key log with
    | none => none
    | some waiting =>
      if e = .admitted key true ∨ e = .admitted key false then if waiting then none else some true
      else if answers e then if waiting then some false else none
      else some waiting

/-- The messages that answer a request for a key, once they are in the queue of the writer. -/
def UploadEvent.sentFor (key : Request) (e : UploadEvent) : Bool :=
  decide (e = .piece key ∨ e = .reject key ∨ e = .late key)

/-- The decisions on an admitted request for a key: it is answered, its reject is left to wait for room, or the connection is
given up. -/
def UploadEvent.settles (key : Request) (e : UploadEvent) : Bool :=
  decide (e = .piece key ∨ e = .reject key ∨ e = .postponed key ∨ e = .gaveUp key)

/-- The requests admitted and not cancelled later, newest first, each with whether it was admitted while the peer was choked. -/
def uncancelled : List UploadEvent → List (Request × Bool)
  | [] => []
  | .admitted key metered :: log => (key, metered) :: uncancelled log
  | .cancelled key :: log => (uncancelled log).eraseP (fun r => r.1 = key)
  | _ :: log => uncancelled log

/-- The bytes of a piece in the requests admitted while the peer was choked and not cancelled later. -/
def chokedBytes (log : List UploadEvent) (index : Nat) : Nat :=
  (((uncancelled log).filter (fun r => r.2 && decide (r.1.1 = index))).map (fun r => r.1.2.2)).sum

/-- The request that a cancel takes back was admitted while the peer was choked, or nothing is charged to its piece. -/
def UploadPeer.RefundsCharged (p : UploadPeer) (key : Request) : Prop :=
  p.pending.contains key = true →
    (uncancelled p.log).find? (fun r => r.1 = key) = some (key, true) ∨ p.served key.1 = 0

/-- Every cancel takes back what was charged. -/
def UploadOp.RefundsCharged {l : Lengths} (p : UploadPeer) : UploadOp l → Prop
  | cancel key _ => p.RefundsCharged key
  | _ => True

end Risuko
