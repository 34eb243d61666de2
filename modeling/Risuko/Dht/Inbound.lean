import Risuko.Id20
import Risuko.Lib.OrdMap
import Risuko.Lib.Reach
import Risuko.Net

/-!
# What the DHT node keeps for others

`TokenState` and the peer store of `InboundDhtState` in `dht.rs`. A reading of the clock and the secrets that a call may draw are arguments, and
the hash of a secret and an address is a parameter.
-/

namespace Risuko

/-! ## Tokens -/

/-- In nanoseconds. -/
def tokenRotation : Nat := 5 * 60 * 1000000000

structure TokenState (σ : Type) where
  current : σ
  previous : σ
  rotated : Nat

namespace TokenState

variable {σ τ : Type}

def new (secret : σ) (now : Nat) : TokenState σ := ⟨secret, secret, now⟩

/-- `rotate_if_needed`, with the secrets that it may draw. -/
def rotateIfNeeded (s : TokenState σ) (now : Nat) (fresh : σ × σ) : TokenState σ :=
  let elapsed := now - s.rotated
  if elapsed < tokenRotation then s
  else if elapsed ≥ tokenRotation * 2 then ⟨fresh.1, fresh.2, now⟩
  else ⟨fresh.1, s.current, s.rotated + tokenRotation⟩

/-- Which of them it draws. -/
def draws (s : TokenState σ) (now : Nat) (fresh : σ × σ) : List σ :=
  let elapsed := now - s.rotated
  if elapsed < tokenRotation then []
  else if elapsed ≥ tokenRotation * 2 then [fresh.1, fresh.2]
  else [fresh.1]

variable (tokenForSecret : σ → IpAddr → τ)

def tokenFor (s : TokenState σ) (addr : SocketAddr) (now : Nat) (fresh : σ × σ) : τ × TokenState σ :=
  let s := s.rotateIfNeeded now fresh
  (tokenForSecret s.current addr.ip, s)

def valid [DecidableEq τ] (s : TokenState σ) (addr : SocketAddr) (token : τ) (now : Nat) (fresh : σ × σ) : Bool × TokenState σ :=
  let s := s.rotateIfNeeded now fresh
  (token = tokenForSecret s.current addr.ip || token = tokenForSecret s.previous addr.ip, s)

end TokenState

/-- The state, with the time of the last call and the secrets that have been drawn. -/
structure TokenHistory (σ : Type) where
  tokens : TokenState σ
  last : Nat
  secrets : List σ

namespace TokenHistory

variable {σ τ : Type} [DecidableEq σ] [DecidableEq τ] (tokenForSecret : σ → IpAddr → τ)

inductive Call (τ : Type) where
  | tokenFor (addr : SocketAddr)
  | valid (addr : SocketAddr) (token : τ)

inductive Answer (τ : Type) where
  | token (token : τ)
  | accepted (ok : Bool)

def new (secret : σ) (now : Nat) : TokenHistory σ := ⟨.new secret now, now, [secret]⟩

/-- A call that is not earlier than the last one and draws no secret a second time. -/
def call (s : TokenHistory σ) (now : Nat) (fresh : σ × σ) (c : Call τ) : Option (Answer τ × TokenHistory σ) :=
  let secrets := s.tokens.draws now fresh ++ s.secrets
  if s.last ≤ now ∧ secrets.Nodup then
    match c with
    | .tokenFor addr =>
      let (token, tokens) := s.tokens.tokenFor tokenForSecret addr now fresh
      some (.token token, ⟨tokens, now, secrets⟩)
    | .valid addr token =>
      let (ok, tokens) := s.tokens.valid tokenForSecret addr token now fresh
      some (.accepted ok, ⟨tokens, now, secrets⟩)
  else none

/-- The states that any calls lead to. -/
def After (s : TokenHistory σ) : TokenHistory σ → Prop :=
  Reach (· = s) fun s s' => ∃ now fresh c answer, s.call tokenForSecret now fresh c = some (answer, s')

end TokenHistory

/-! ## The peer store -/

/-- In nanoseconds. -/
def peerStoreTtl : Nat := 30 * 60 * 1000000000
def maxStoredPeers : Nat := 2048
def maxPeersPerHash : Nat := 256
def maxPeersPerIp : Nat := 4

structure StoredPeer where
  addr : SocketAddr
  seen : Nat
  deriving DecidableEq

instance : LinearOrder Id20 := LinearOrder.lift' Id20.bytes fun _ _ => Id20.ext

abbrev StoredPeers := OrdMap Id20 (List StoredPeer)

/-- What a peer is evicted from, one of these being too large with the new one. -/
inductive PeerGroup where
  | ip (hash : Id20) (ip : IpAddr)
  | hash (hash : Id20)
  | store

/-- A peer that was evicted, and who else was there. -/
structure Eviction where
  group : PeerGroup
  peer : StoredPeer
  members : List StoredPeer

/-- The fields of `InboundDhtState` that say which peers are stored. -/
structure PeerStore where
  peers : StoredPeers
  privateHashes : List Id20

namespace PeerStore

/-- The peers stored for a hash. -/
def peersOf (peers : StoredPeers) (hash : Id20) : List StoredPeer := (peers.get? hash).getD []

def new : PeerStore := ⟨.empty, []⟩

/-- The place and the peer seen longest ago, of those that satisfy a test. -/
def oldest (entries : List StoredPeer) (p : StoredPeer → Bool) : Option (StoredPeer × Nat) :=
  (entries.zipIdx.filter fun e => p e.1).argmin fun e => e.1.seen

/-- Make room among the entries that satisfy a test, of which there may be no more than `limit` with the new one. -/
def makeRoom (entries : List StoredPeer) (p : StoredPeer → Bool) (limit : Nat) (group : PeerGroup) : List StoredPeer × List Eviction :=
  if limit ≤ (entries.filter p).length then
    match oldest entries p with
    | some (peer, i) => (entries.eraseIdx i, [⟨group, peer, entries.filter p⟩])
    | none => (entries, [])
  else (entries, [])

/-- The entries of the whole store. -/
def count (peers : StoredPeers) : Nat := peers.sumOf fun _ entries => entries.length

/-- Every peer of the store, with its hash and its place. -/
def places (peers : StoredPeers) : List (Id20 × Nat × StoredPeer) :=
  peers.entries.flatMap fun (hash, entries) => entries.zipIdx.map fun (peer, i) => (hash, i, peer)

/-- Remove a peer, and the list with the last peer of a hash. -/
def removeAt (peers : StoredPeers) (hash : Id20) (i : Nat) : StoredPeers :=
  match peers.get? hash with
  | some entries => if (entries.eraseIdx i).isEmpty then peers.erase hash else peers.insert hash (entries.eraseIdx i)
  | none => peers

/-- The loop of `add_peer`. -/
def evictLoop : Nat → StoredPeers → Option (StoredPeers × List Eviction)
  | 0, _ => none
  | fuel + 1, peers =>
    if maxStoredPeers < count peers then
      match (places peers).argmin fun e => e.2.2.seen with
      | some (hash, i, peer) =>
        (evictLoop fuel (removeAt peers hash i)).map fun (rest, evicted) => (rest, ⟨.store, peer, (places peers).map (·.2.2)⟩ :: evicted)
      | none => some (peers, [])
    else some (peers, [])

/-- `add_peer`, with what it evicts. -/
def addPeer (fuel : Nat) (s : PeerStore) (hash : Id20) (addr : SocketAddr) (now : Nat) : Option (PeerStore × List Eviction) :=
  if hash ∈ s.privateHashes then some (s, [])
  else
    let entries := peersOf s.peers hash
    match entries.findIdx? (·.addr = addr) with
    | some i => some ({ s with peers := s.peers.insert hash (entries.modify i fun peer => { peer with seen := now }) }, [])
    | none =>
      let (entries, evicted) := makeRoom entries (fun peer => peer.addr.ip = addr.ip) maxPeersPerIp (.ip hash addr.ip)
      let (entries, evicted') := makeRoom entries (fun _ => true) maxPeersPerHash (.hash hash)
      (evictLoop fuel (s.peers.insert hash (entries ++ [⟨addr, now⟩]))).map fun (peers, evicted'') =>
        ({ s with peers := peers }, evicted ++ evicted' ++ evicted'')

/-- `get_peers`. -/
def getPeers (s : PeerStore) (hash : Id20) (family : Option Bool) (now : Nat) : List SocketAddr × PeerStore :=
  match s.peers.get? hash with
  | none => ([], s)
  | some entries =>
    let entries := entries.filter fun peer => now - peer.seen ≤ peerStoreTtl
    ((entries.reverse.filter fun peer => family.all (· = peer.addr.isIpv6)).map (·.addr),
      { s with peers := if entries.isEmpty then s.peers.erase hash else s.peers.insert hash entries })

/-- `set_private`. It holds the lock of the private hashes to its end, so that only `get_peers` can come in between, which does not read them. -/
def setPrivate (s : PeerStore) (hash : Id20) (isPrivate : Bool) : PeerStore :=
  if isPrivate then ⟨s.peers.erase hash, hash :: s.privateHashes⟩
  else { s with privateHashes := s.privateHashes.filter (· ≠ hash) }

end PeerStore

end Risuko
