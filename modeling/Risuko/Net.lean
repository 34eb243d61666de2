import Mathlib.Algebra.Ring.Nat

/-!
# Addresses

Internet addresses, and what `net.rs` and `magnet.rs` read off them. An IPv6 address is the number its octets spell.
-/

namespace Risuko

inductive IpAddr
  | v4 (ip : UInt32)
  | v6 (ip : Nat)
  deriving DecidableEq

inductive SocketAddr
  | v4 (ip : UInt32) (port : UInt16)
  | v6 (ip : Nat) (port : UInt16)
  deriving DecidableEq

namespace IpAddr

def isIpv6 : IpAddr → Bool
  | v4 _ => false
  | v6 _ => true

/-- `to_canonical`: an IPv4 address mapped into IPv6 is the IPv4 address. -/
def toCanonical : IpAddr → IpAddr
  | v4 ip => .v4 ip
  | v6 ip => if ip / 2 ^ 32 = 0xffff then .v4 (UInt32.ofNat (ip % 2 ^ 32)) else .v6 ip

/-- `host_prefix`: IPv6 addresses count by their upper half. -/
def hostPrefix : IpAddr → IpAddr
  | v4 ip => .v4 ip
  | v6 ip => .v6 (ip / 2 ^ 64 * 2 ^ 64)

/-- `is_lan`: private, loopback and link-local addresses of IPv4; loopback, link-local and unique local ones of IPv6. -/
def isLan : IpAddr → Bool
  | v4 ip =>
    let ip := ip.toNat
    let isPrivate := ip / 2 ^ 24 = 10 || ip / 2 ^ 20 = 172 * 16 + 1 || ip / 2 ^ 16 = 192 * 256 + 168
    let isLoopback := ip / 2 ^ 24 = 127
    let isLinkLocal := ip / 2 ^ 16 = 169 * 256 + 254
    isPrivate || isLoopback || isLinkLocal
  | v6 ip =>
    let isLoopback := ip = 1
    let isUnicastLinkLocal := ip / 2 ^ 118 = 0x3fa
    let isUniqueLocal := ip / 2 ^ 121 = 0x7e
    isLoopback || isUnicastLinkLocal || isUniqueLocal

end IpAddr

namespace SocketAddr

def isIpv6 : SocketAddr → Bool
  | v4 .. => false
  | v6 .. => true

def ip : SocketAddr → IpAddr
  | v4 ip _ => .v4 ip
  | v6 ip _ => .v6 ip

def port : SocketAddr → UInt16
  | v4 _ port => port
  | v6 _ port => port

end SocketAddr

/-- Four octets as a number. -/
def fromBeBytes (a b c d : Nat) : Nat := ((a * 256 + b) * 256 + c) * 256 + d

def cloudflareV4 : List (Nat × Nat) :=
  [(fromBeBytes 173 245 48 0, 20),
    (fromBeBytes 103 21 244 0, 22),
    (fromBeBytes 103 22 200 0, 22),
    (fromBeBytes 103 31 4 0, 22),
    (fromBeBytes 141 101 64 0, 18),
    (fromBeBytes 108 162 192 0, 18),
    (fromBeBytes 190 93 240 0, 20),
    (fromBeBytes 188 114 96 0, 20),
    (fromBeBytes 197 234 240 0, 22),
    (fromBeBytes 198 41 128 0, 17),
    (fromBeBytes 162 158 0 0, 15),
    (fromBeBytes 104 16 0 0, 13),
    (fromBeBytes 104 24 0 0, 14),
    (fromBeBytes 172 64 0 0, 13),
    (fromBeBytes 131 0 72 0, 22)]

/-- `is_cloudflare_v4`. -/
def isCloudflareV4 (ip : Nat) : Bool := cloudflareV4.any (fun (net, len) => ip / 2 ^ (32 - len) = net / 2 ^ (32 - len))

/-- `is_dialable_peer_addr`. -/
def isDialablePeerAddr (addr : SocketAddr) : Bool :=
  if addr.port = 0 then false
  else
    match addr.ip with
    | .v4 ip =>
      let ip := ip.toNat
      let multicast := decide (ip / 2 ^ 28 = 14)
      let linkLocal := decide (ip / 2 ^ 16 = 169 * 256 + 254)
      if ip = 0 || ip = 2 ^ 32 - 1 || multicast || linkLocal then false else !isCloudflareV4 ip
    | .v6 ip =>
      let multicast := decide (ip / 2 ^ 120 = 0xff)
      let unicastLinkLocal := decide (ip / 2 ^ 118 = 0x3fa)
      !(ip = 0 || multicast || unicastLinkLocal)

end Risuko
