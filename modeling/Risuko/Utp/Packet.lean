import Mathlib.Tactic

/-!
# uTP packets

The header of a packet and its encoding: twenty bytes, the selective-ack extension when there is one, and the payload. All
numbers are sent with the high byte first.
-/

namespace Risuko

def headerLen : Nat := 20

def utpVersion : UInt8 := 1

def extSelectiveAck : UInt8 := 1

inductive PacketType
  | data
  | fin
  | state
  | reset
  | syn
  deriving DecidableEq

/-- The kinds of I/O error that the connection code builds or tells apart; `other` stands for the rest. -/
inductive ErrorKind
  | connectionReset
  | connectionAborted
  | timedOut
  | brokenPipe
  | unexpectedEof
  | invalidData
  | other (code : Nat)
  deriving DecidableEq

namespace PacketType

/-- The number of a packet type on the wire. -/
def toNibble : PacketType → UInt8
  | data => 0
  | fin => 1
  | state => 2
  | reset => 3
  | syn => 4

def fromNibble (v : UInt8) : Option PacketType :=
  if v = 0 then some data
  else if v = 1 then some fin
  else if v = 2 then some state
  else if v = 3 then some reset
  else if v = 4 then some syn
  else none

end PacketType

structure UtpHeader where
  packetType : PacketType
  connectionId : UInt16
  timestampMicros : UInt32
  timestampDiffMicros : UInt32
  wndSize : UInt32
  seqNr : UInt16
  ackNr : UInt16
  selectiveAck : Option (List UInt8)
  deriving DecidableEq

/-- `u16::to_be_bytes`. -/
def beBytes16 (x : UInt16) : List UInt8 := [(x >>> 8).toUInt8, x.toUInt8]

/-- `u32::to_be_bytes`. -/
def beBytes32 (x : UInt32) : List UInt8 := [(x >>> 24).toUInt8, (x >>> 16).toUInt8, (x >>> 8).toUInt8, x.toUInt8]

/-- `u16::from_be_bytes`. -/
def ofBeBytes16 (a b : UInt8) : UInt16 := a.toUInt16 <<< 8 ||| b.toUInt16

/-- `u32::from_be_bytes`. -/
def ofBeBytes32 (a b c d : UInt8) : UInt32 :=
  a.toUInt32 <<< 24 ||| b.toUInt32 <<< 16 ||| c.toUInt32 <<< 8 ||| d.toUInt32

namespace UtpHeader

/-- The selective ack that is sent: an empty one is not. -/
def sentSack (h : UtpHeader) : Option (List UInt8) := h.selectiveAck.filter (fun s => !s.isEmpty)

/-- The extension record of a selective ack. -/
def extensionBytes : Option (List UInt8) → List UInt8
  | some s => 0 :: UInt8.ofNat s.length :: s
  | none => []

def encode (h : UtpHeader) (payload : List UInt8) : List UInt8 :=
  [h.packetType.toNibble <<< 4 ||| utpVersion, if h.sentSack.isSome then extSelectiveAck else 0] ++
    beBytes16 h.connectionId ++ beBytes32 h.timestampMicros ++ beBytes32 h.timestampDiffMicros ++ beBytes32 h.wndSize ++
    beBytes16 h.seqNr ++ beBytes16 h.ackNr ++ extensionBytes h.sentSack ++ payload

/-- The extension records after the fixed header: of the selective acks of a usable length the last one counts. -/
def decodeExtensions (ext : UInt8) (rest : List UInt8) (sack : Option (List UInt8)) :
    Except (ErrorKind × String) (Option (List UInt8) × List UInt8) :=
  if ext = 0 then .ok (sack, rest)
  else
    match rest with
    | nextExt :: len :: tail =>
      if tail.length < len.toNat then .error (.invalidData, "truncated utp extension data")
      else
        decodeExtensions nextExt (tail.drop len.toNat)
          (if ext = extSelectiveAck && len.toNat ≥ 4 && len.toNat % 4 = 0 then some (tail.take len.toNat) else sack)
    | _ => .error (.invalidData, "truncated utp extension record")
  termination_by rest.length

def decode : List UInt8 → Except (ErrorKind × String) (UtpHeader × List UInt8)
  | b0 :: b1 :: b2 :: b3 :: b4 :: b5 :: b6 :: b7 :: b8 :: b9 :: b10 :: b11 :: b12 :: b13 :: b14 :: b15 :: b16 :: b17 ::
      b18 :: b19 :: rest =>
    if b0 &&& 0x0f ≠ utpVersion then .error (.invalidData, "unsupported utp version")
    else
      match PacketType.fromNibble (b0 >>> 4) with
      | none => .error (.invalidData, "unknown utp packet type")
      | some packetType =>
        match decodeExtensions b1 rest none with
        | .error e => .error e
        | .ok (selectiveAck, payload) =>
          .ok ({ packetType := packetType
                 connectionId := ofBeBytes16 b2 b3
                 timestampMicros := ofBeBytes32 b4 b5 b6 b7
                 timestampDiffMicros := ofBeBytes32 b8 b9 b10 b11
                 wndSize := ofBeBytes32 b12 b13 b14 b15
                 seqNr := ofBeBytes16 b16 b17
                 ackNr := ofBeBytes16 b18 b19
                 selectiveAck := selectiveAck }, payload)
  | _ => .error (.unexpectedEof, "utp packet shorter than header")

end UtpHeader

end Risuko
