import Risuko.Lib.Reach
import Risuko.Net

/-!
# The sources of an ed2k download

`SourceScheduler`, `QueuedSources` and the test of `run_download` for work that is left, from `download.rs`. A candidate goes from the channel to the
dispatcher, from there to a peer task, and from a peer that has queued us over the re-ask task back to the channel. A step is one atomic access, or
one section under a lock. Permits come at any time; times are natural numbers.
-/

namespace Risuko

namespace Ed2k

inductive SourceOrigin where
  | link
  | server
  | kad
  deriving DecidableEq

/-- What the scheduler reads of a candidate. -/
structure SourceCandidate where
  addr : SocketAddr
  origin : SourceOrigin
  deriving DecidableEq

structure QueuedSource where
  candidate : SourceCandidate
  due : ℕ
  deriving DecidableEq

def reaskBackoff : ℕ := 30

/-- A call of `submit` that holds the lock. -/
inductive Submission where
  | none
  /-- `pending` counts the candidate. -/
  | counted (candidate : SourceCandidate)
  /-- `try_send` has failed. -/
  | refused (candidate : SourceCandidate)

inductive Dispatcher where
  | receiving
  | awaitingPermit (candidate : SourceCandidate)
  | permitted (candidate : SourceCandidate)
  /-- `pending` does not count the candidate any more, and the peer task is still to be spawned. -/
  | dispatching (candidate : SourceCandidate)
  | stopped

/-- A candidate in the loop of the re-ask task for which `try_send` has failed. -/
inductive Refused where
  | none
  | refused (source : QueuedSource)
  /-- `postpone` has put it back. -/
  | postponed

inductive PeerTask where
  | running (candidate : SourceCandidate)
  /-- The peer has queued us. -/
  | queued (candidate : SourceCandidate)
  | leaving

/-- How far the test `no_work` is. -/
inductive Test where
  | none
  /-- `peer_count` was zero. -/
  | noPeers
  /-- The map was empty, too. -/
  | noQueued
  | done (noWork : Bool)
  deriving DecidableEq

structure Sources where
  capacity : ℕ
  cancelled : Bool
  seen : List SocketAddr
  submission : Submission
  pending : ℕ
  channel : List SourceCandidate
  dispatcher : Dispatcher
  peerCount : ℕ
  peers : List PeerTask
  queued : List QueuedSource
  /-- What the re-ask task has taken, or nothing. -/
  taken : List QueuedSource
  refused : Refused
  test : Test

namespace Sources

inductive Action where
  | cancel
  | submit (candidate : SourceCandidate)
  | submitSend
  | submitUndo
  | receive
  | permit
  /-- The dispatcher decrements `pending`. -/
  | uncount
  | spawn
  /-- The dispatcher finds that it is cancelled. -/
  | abandon
  | peerEnds (i : ℕ) (queued : Bool)
  | peerQueues (i due : ℕ)
  | peerLeaves (i : ℕ)
  | takeDue (now : ℕ)
  | resend (i : ℕ)
  | postpone (now : ℕ)
  | postponeUncount
  | readPeers
  | readQueued
  | readPending

/-- `try_send`: the channel has room and its receiver. -/
def trySend (s : Sources) (candidate : SourceCandidate) : Option (List SourceCandidate) :=
  match s.dispatcher with
  | .stopped => none
  | _ => if s.channel.length < s.capacity then some (s.channel ++ [candidate]) else none

/-- A map by address. -/
def insertQueued (queued : List QueuedSource) (source : QueuedSource) : List QueuedSource :=
  queued.filter (fun q => q.candidate.addr != source.candidate.addr) ++ [source]

/-- `add`. -/
def addQueued (s : Sources) (candidate : SourceCandidate) (due : ℕ) : List QueuedSource :=
  if s.capacity ≤ s.queued.length ∧ (s.queued.any fun q => q.candidate.addr == candidate.addr) = false then s.queued
  else insertQueued s.queued ⟨candidate, due⟩

variable (isPublic : SocketAddr → Bool)

def usable (candidate : SourceCandidate) : Bool :=
  match candidate.origin with
  | .kad => candidate.addr.port != 0 && isPublic candidate.addr
  | _ => candidate.addr.port != 0

def stepSubmit (s : Sources) : Action → Option Sources
  | .submit candidate =>
    match s.submission with
    | .none =>
      if s.cancelled || !usable isPublic candidate || candidate.addr ∈ s.seen then none
      else some { s with seen := s.seen ++ [candidate.addr], pending := s.pending + 1, submission := .counted candidate }
    | _ => none
  | .submitSend =>
    match s.submission with
    | .counted candidate =>
      some (match s.trySend candidate with
        | some channel => { s with channel := channel, submission := .none }
        | none => { s with submission := .refused candidate })
    | _ => none
  | .submitUndo =>
    match s.submission with
    | .refused candidate => some { s with pending := s.pending - 1, seen := s.seen.filter (· != candidate.addr), submission := .none }
    | _ => none
  | _ => none

def stepDispatcher (s : Sources) : Action → Option Sources
  | .receive =>
    match s.dispatcher, s.channel with
    | .receiving, candidate :: rest => some { s with channel := rest, dispatcher := .awaitingPermit candidate }
    | _, _ => none
  | .permit =>
    match s.dispatcher with
    | .awaitingPermit candidate => some { s with dispatcher := .permitted candidate }
    | _ => none
  | .uncount =>
    match s.dispatcher with
    | .permitted candidate => some { s with pending := s.pending - 1, dispatcher := .dispatching candidate }
    | _ => none
  | .spawn =>
    match s.dispatcher with
    | .dispatching candidate =>
      some { s with peerCount := s.peerCount + 1, peers := s.peers ++ [.running candidate], dispatcher := .receiving }
    | _ => none
  | .abandon =>
    if s.cancelled = false then none
    else
      match s.dispatcher with
      -- The receiver goes, and what is in the channel with it.
      | .receiving => some { s with channel := [], dispatcher := .stopped }
      | .awaitingPermit _ | .permitted _ => some { s with pending := s.pending - 1, channel := [], dispatcher := .stopped }
      | _ => none
  | _ => none

def stepPeer (s : Sources) : Action → Option Sources
  | .peerEnds i queued =>
    match s.peers[i]? with
    | some (.running candidate) => some { s with peers := s.peers.set i (if queued then .queued candidate else .leaving) }
    | _ => none
  | .peerQueues i due =>
    match s.peers[i]? with
    | some (.queued candidate) => some { s with queued := s.addQueued candidate due, peers := s.peers.set i .leaving }
    | _ => none
  | .peerLeaves i =>
    match s.peers[i]? with
    | some .leaving => some { s with peerCount := s.peerCount - 1, peers := s.peers.eraseIdx i }
    | _ => none
  | _ => none

def stepReask (s : Sources) : Action → Option Sources
  | .takeDue now =>
    match s.taken, s.refused with
    | [], .none =>
      let due := s.queued.filter fun q => q.due ≤ now
      some { s with queued := s.queued.filter fun q => !(q.due ≤ now), pending := s.pending + due.length, taken := due }
    | _, _ => none
  | .resend i =>
    match s.taken[i]?, s.refused with
    | some source, .none =>
      some (match s.trySend source.candidate with
        | some channel => { s with channel := channel, taken := s.taken.eraseIdx i }
        | none => { s with taken := s.taken.eraseIdx i, refused := .refused source })
    | _, _ => none
  | .postpone now =>
    match s.refused with
    | .refused source => some { s with queued := insertQueued s.queued { source with due := now + reaskBackoff }, refused := .postponed }
    | _ => none
  | .postponeUncount =>
    match s.refused with
    | .postponed => some { s with pending := s.pending - 1, refused := .none }
    | _ => none
  | _ => none

/-- The test reads one after the other, as far as it has to. -/
def stepTest (s : Sources) : Action → Option Sources
  | .readPeers =>
    match s.test with
    | .none | .done _ => some { s with test := if s.peerCount = 0 then .noPeers else .done false }
    | _ => none
  | .readQueued =>
    match s.test with
    | .noPeers => some { s with test := if s.queued = [] then .noQueued else .done false }
    | _ => none
  | .readPending =>
    match s.test with
    | .noQueued => some { s with test := .done (s.pending == 0) }
    | _ => none
  | _ => none

def step (s : Sources) (a : Action) : Option Sources :=
  match a with
  | .cancel => some { s with cancelled := true }
  | .submit _ | .submitSend | .submitUndo => s.stepSubmit isPublic a
  | .receive | .permit | .uncount | .spawn | .abandon => s.stepDispatcher a
  | .peerEnds .. | .peerQueues .. | .peerLeaves _ => s.stepPeer a
  | .takeDue _ | .resend _ | .postpone _ | .postponeUncount => s.stepReask a
  | .readPeers | .readQueued | .readPending => s.stepTest a

/-- `new`. -/
def new (capacity : ℕ) : Sources where
  capacity := capacity
  cancelled := false
  seen := []
  submission := .none
  pending := 0
  channel := []
  dispatcher := .receiving
  peerCount := 0
  peers := []
  queued := []
  taken := []
  refused := .none
  test := .none

def Reachable : Sources → Prop := Reach (fun s => ∃ capacity, s = .new capacity) fun s s' => ∃ a, s.step isPublic a = some s'

end Sources

end Ed2k

end Risuko
