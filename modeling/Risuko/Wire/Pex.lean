import Risuko.Metainfo.Parse
import Risuko.Wire.Message

/-!
# Peer exchange

The part of `wire/extended.rs` that builds and parses the `ut_pex` message. An address is written as its octets and its port, so the
flow label and the scope that the program keeps with an IPv6 address are not written.
-/

namespace Risuko

open Bencode (ByteVec Value)

namespace Pex

def extensionDecodeLimits : Bencode.DecodeLimits := { maxInputLen := maxMessageBytes, maxDepth := 32, maxValues := 65536 }

/-- The octets of an address. -/
@[ext]
structure Octets (n : ℕ) where
  data : List UInt8
  length_eq : data.length = n
  deriving DecidableEq

/-- A socket address, with the flow label and the scope that IPv6 has. -/
inductive SocketAddr where
  | v4 (octets : Octets 4) (port : UInt16)
  | v6 (octets : Octets 16) (port : UInt16) (flowinfo scopeId : UInt32)
  deriving DecidableEq

namespace SocketAddr

def port : SocketAddr → UInt16
  | v4 _ port => port
  | v6 _ port _ _ => port

def isIpv6 : SocketAddr → Bool
  | v4 .. => false
  | v6 .. => true

def octets : SocketAddr → List UInt8
  | v4 octets _ => octets.data
  | v6 octets _ _ _ => octets.data

/-- `is_unspecified` of the address. -/
def isUnspecified (addr : SocketAddr) : Bool := addr.octets.all fun b => b = 0

/-- `is_multicast` of the address. -/
def isMulticast : SocketAddr → Bool
  | v4 octets _ => octets.data.head?.any fun b => 224 ≤ b && b ≤ 239
  | v6 octets _ _ _ => octets.data.head?.any fun b => b = 0xff

end SocketAddr

structure UtPex where
  added : List (SocketAddr × UInt8)
  dropped : List SocketAddr
  deriving DecidableEq

/-- `valid_pex_endpoint`. -/
def validPexEndpoint (addr : SocketAddr) : Bool := addr.port ≠ 0 && !addr.isUnspecified && !addr.isMulticast

/-- `chunks_exact`. -/
def chunksExact (width : ℕ) (bytes : List UInt8) : List (List UInt8) :=
  (List.range (bytes.length / width)).map fun i => (bytes.drop (width * i)).take width

/-! ## Parsing -/

/-- `decode_compact_addr`. -/
def decodeCompactAddr (chunk : List UInt8) (v6 : Bool) : Option SocketAddr :=
  let addr :=
    if v6 then
      if h : (chunk.take 16).length = 16 then do
        let hi ← chunk[16]?
        let lo ← chunk[17]?
        return SocketAddr.v6 ⟨chunk.take 16, h⟩ (ofBeBytes16 hi lo) 0 0
      else none
    else
      if h : (chunk.take 4).length = 4 then do
        let hi ← chunk[4]?
        let lo ← chunk[5]?
        return SocketAddr.v4 ⟨chunk.take 4, h⟩ (ofBeBytes16 hi lo)
      else none
  addr.filter validPexEndpoint

def width (v6 : Bool) : ℕ := if v6 then 18 else 6

/-- `parse_compact_pex`. -/
def parseCompactPex (bytes : List UInt8) (v6 : Bool) : List SocketAddr :=
  (chunksExact (width v6) bytes).filterMap fun chunk => decodeCompactAddr chunk v6

/-- `parse_compact_pex_flagged`. -/
def parseCompactPexFlagged (bytes flags : List UInt8) (v6 : Bool) (remaining : ℕ) : List (SocketAddr × UInt8) :=
  ((chunksExact (width v6) bytes).zipIdx.filterMap fun e =>
    (decodeCompactAddr e.1 v6).map fun addr => (addr, flags.getD e.2 0)).take remaining

/-- A key as it is written in the source. -/
def keyOf (key : String) : List UInt8 := key.toList.map Bencode.ascii

/-- The byte string under a key, or the empty one. -/
def bytesOf (dict : List (ByteVec × Value)) (key : String) : List UInt8 :=
  ((dict.find? fun e => e.1.data = keyOf key).bind fun e => e.2.asBytes).getD []

/-- `parse_ut_pex_full`. -/
def parseUtPexFull (payload : List UInt8) : Option UtPex :=
  match Bencode.decodeAllExternal payload extensionDecodeLimits with
  | .error _ => none
  | .ok value =>
    value.asDict.map fun dict =>
      let added := parseCompactPexFlagged (bytesOf dict "added") (bytesOf dict "added.f") false 50
      let added :=
        if added.length < 50 then
          added ++ parseCompactPexFlagged (bytesOf dict "added6") (bytesOf dict "added6.f") true (50 - added.length)
        else added
      let dropped := parseCompactPex (bytesOf dict "dropped") false ++ parseCompactPex (bytesOf dict "dropped6") true
      { added := added, dropped := dropped.take 50 }

/-! ## Building -/

/-- What is written of an address: its octets and its port. -/
def compact (addr : SocketAddr) : List UInt8 := addr.octets ++ beBytes16 addr.port

/-- `split`: the addresses of IPv4 and those of IPv6, one after the other. -/
def split : List SocketAddr → List UInt8 × List UInt8
  | [] => ([], [])
  | addr :: addrs =>
    let (v4, v6) := split addrs
    match addr with
    | .v4 .. => (compact addr ++ v4, v6)
    | .v6 .. => (v4, compact addr ++ v6)

/-- A vector of bytes. One that is longer than any vector panics. -/
def vec (bytes : List UInt8) : Option ByteVec := if h : bytes.length ≤ Bencode.isizeMax then some ⟨bytes, h⟩ else none

/-- An entry of the dictionary. -/
def entry (key : String) (bytes : List UInt8) : Option (ByteVec × Value) := do
  let key ← vec (keyOf key)
  let bytes ← vec bytes
  return (key, .bytes bytes)

/-- `build_ut_pex`. It panics where `encode_to_vec` does. -/
def buildUtPex (added : List (SocketAddr × UInt8)) (dropped : List SocketAddr) : Option (List UInt8) := do
  let added := (added.filter fun e => validPexEndpoint e.1).take 50
  let flags (v6 : Bool) : List UInt8 := (added.filter fun e => e.1.isIpv6 = v6).map Prod.snd
  let dropped := (dropped.filter validPexEndpoint).take 50
  let (added4, added6) := split (added.map Prod.fst)
  let (dropped4, dropped6) := split dropped
  let dict ← [("added", added4), ("added.f", flags false), ("added6", added6), ("added6.f", flags true), ("dropped", dropped4),
    ("dropped6", dropped6)].mapM fun e => entry e.1 e.2
  Bencode.encodeToVec (.dict dict)

end Pex

end Risuko
