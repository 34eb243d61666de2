import Mathlib.Data.List.TakeWhile
import Risuko.Dht.ExternalIp
import Risuko.Dht.Routing

/-!
# The priority of a peer

`peer_priority.rs`: a number that both ends of a connection compute from their two addresses, and the order in which peers are dialled.
-/

namespace Risuko

def v4KeptFloor : ℕ := 2

def v6KeptFloor : ℕ := 6

def hiddenBits : UInt8 := 0x55

/-- `to_canonical` of the address. -/
def SocketAddr.canonicalIp (addr : SocketAddr) : IpAddr := addr.ip.toCanonical

/-- `masked_pair_priority`. -/
def maskedPairPriority (a b : List UInt8) (floor : ℕ) : UInt32 :=
  let shared := ((a.zip b).takeWhile fun (x, y) => x = y).length
  let kept := min (max (shared + 1) floor) a.length
  let mask := fun bytes : List UInt8 => bytes.take kept ++ (bytes.drop kept).map (· &&& hiddenBits)
  let (first, second) := if mask a ≤ mask b then (mask a, mask b) else (mask b, mask a)
  crc32c (first ++ second)

/-- `mapped`, as octets. -/
def mappedOctets : IpAddr → List UInt8
  | .v4 ip => List.replicate 10 0 ++ [0xff, 0xff] ++ toBeBytes32 ip
  | .v6 ip => toBeBytes64 (UInt64.ofNat (ip / 2 ^ 64)) ++ toBeBytes64 (UInt64.ofNat (ip % 2 ^ 64))

/-- `peer_priority`. -/
def peerPriority (ours theirs : SocketAddr) : UInt32 :=
  if ours.canonicalIp = theirs.canonicalIp then
    let (low, high) := if ours.port ≤ theirs.port then (ours.port, theirs.port) else (theirs.port, ours.port)
    crc32c [(low >>> 8).toUInt8, low.toUInt8, (high >>> 8).toUInt8, high.toUInt8]
  else
    match ours.canonicalIp, theirs.canonicalIp with
    | .v4 a, .v4 b => maskedPairPriority (toBeBytes32 a) (toBeBytes32 b) v4KeptFloor
    | a, b => maskedPairPriority (mappedOctets a) (mappedOctets b) v6KeptFloor

/-- Our addresses of either family, as far as they are known, and the port we listen on. -/
structure PeerRanker where
  ours : ExternalIp.ExternalAddresses
  listenPort : UInt16

namespace PeerRanker

/-- `priority`. -/
def priority (ranker : PeerRanker) (theirs : SocketAddr) : Option UInt32 :=
  match theirs.canonicalIp with
  | .v4 _ => ranker.ours.v4.map fun ip => peerPriority (.v4 ip ranker.listenPort) theirs
  | .v6 _ => ranker.ours.v6.map fun ip => peerPriority (.v6 ip ranker.listenPort) theirs

/-- The addresses with a priority are replaced by those of the sorted list, one after the other. -/
def refill (ranker : PeerRanker) : List SocketAddr → List (UInt32 × SocketAddr) → List SocketAddr
  | addr :: addrs, ranked =>
    match ranker.priority addr, ranked with
    | some _, next :: ranked => next.2 :: refill ranker addrs ranked
    | _, ranked => addr :: refill ranker addrs ranked
  | [], _ => []

/-- `order_batch`. -/
def orderBatch (ranker : PeerRanker) (addrs : List SocketAddr) : List SocketAddr :=
  if addrs.length < 2 ∨ ranker.ours = ⟨none, none⟩ then addrs
  else
    let ranked := addrs.filterMap fun addr => (ranker.priority addr).map (·, addr)
    refill ranker addrs (ranked.mergeSort fun a b => b.1 ≤ a.1)

end PeerRanker

end Risuko
