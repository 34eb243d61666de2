import Risuko.Kad.Routing
import Risuko.Lib.LittleEndian
import Risuko.Lib.Text

/-!
# The Kad wire format

The parser of routing responses in `kad/wire.rs`. A cursor is the bytes that remain.
-/

namespace Risuko

namespace Kad

/-! ## Ids and addresses -/

/-- Each four bytes the other way round. -/
def swapWords : List UInt8 → List UInt8
  | a :: b :: c :: d :: rest => d :: c :: b :: a :: swapWords rest
  | rest => rest

theorem length_swapWords (bytes : List UInt8) : (swapWords bytes).length = bytes.length := by
  fun_induction swapWords bytes with
  | case1 a b c d rest ih => simp only [List.length_cons, ih]
  | case2 rest => rfl

/-- `id_to_wire`, and `id_from_wire`. -/
def idToWire (id : KadId) : KadId := ⟨swapWords id.bytes, (length_swapWords _).trans id.length_eq⟩

/-- `to_be_bytes` as an address. -/
def Ipv4Addr.ofBe (n : ℕ) : Ipv4Addr := ⟨UInt8.ofNat (n / 2 ^ 24), UInt8.ofNat (n / 2 ^ 16), UInt8.ofNat (n / 2 ^ 8), UInt8.ofNat n⟩

/-! ## Values -/

inductive WireError where
  | truncated (context : String)
  | invalidValue (context : String)
  | invalidTagType (wireType : UInt8)
  | invalidUtf8
  | invalidCount (context : String) (count : ℕ)
  deriving DecidableEq

structure KadWireContact where
  id : KadId
  ip : Ipv4Addr
  udpPort : UInt16
  tcpPort : UInt16
  version : UInt8
  deriving DecidableEq

structure RoutingResponse where
  target : KadId
  contacts : List KadWireContact
  deriving DecidableEq

structure KadPacket where
  opcode : UInt8
  payload : List UInt8

/-! ## The cursor -/

abbrev Cursor := StateT (List UInt8) (Except WireError)

namespace Cursor

/-- Read so many values one after the other. -/
def many {β : Type} (m : Cursor β) : ℕ → Cursor (List β)
  | 0 => pure []
  | n + 1 => do
    let b ← m
    let bs ← many m n
    return b :: bs

def take (len : ℕ) (context : String) : Cursor (List UInt8) := fun data =>
  if data.length < len then .error (.truncated context) else .ok (data.take len, data.drop len)

def remaining : Cursor ℕ := fun data => .ok (data.length, data)

/-- A check that ends the parser. -/
def refuse (c : Prop) [Decidable c] (e : WireError) : Cursor Unit := if c then throw e else pure ()

def u8 (context : String) : Cursor UInt8 := do
  let bytes ← take 1 context
  return UInt8.ofNat (ofLe bytes)

def u16 (context : String) : Cursor UInt16 := do
  let bytes ← take 2 context
  return UInt16.ofNat (ofLe bytes)

def u32 (context : String) : Cursor UInt32 := do
  let bytes ← take 4 context
  return UInt32.ofNat (ofLe bytes)

/-- Sixteen bytes as they are. -/
def array16 (context : String) : Cursor KadId := do
  let bytes ← take 16 context
  if h : bytes.length = 16 then return ⟨bytes, h⟩ else throw (.truncated context)

def id (context : String) : Cursor KadId := do
  let wireId ← array16 context
  return idToWire wireId

def finish (context : String) : Cursor Unit := do
  let left ← remaining
  refuse (left ≠ 0) (.invalidValue context)

end Cursor

/-- A parser on a whole payload. -/
def parseAll {α : Type} (m : Cursor α) (payload : List UInt8) : Except WireError α := (m payload).map (·.1)

/-! ## Messages -/

def readContact : Cursor KadWireContact := do
  let id ← Cursor.id "contact id"
  let rawIp ← Cursor.u32 "contact ip"
  let udpPort ← Cursor.u16 "contact udp port"
  let tcpPort ← Cursor.u16 "contact tcp port"
  let version ← Cursor.u8 "contact version"
  return ⟨id, .ofBe rawIp.toNat, udpPort, tcpPort, version⟩

def parseRoutingResponseWithLimit (maxContacts : ℕ) : List UInt8 → Except WireError RoutingResponse :=
  parseAll do
    let target ← Cursor.id "routing target"
    let count ← Cursor.u8 "routing contact count"
    Cursor.refuse (32 < count.toNat ∨ maxContacts < count.toNat) (.invalidCount "routing contact" count.toNat)
    let contacts ← Cursor.many readContact count.toNat
    Cursor.finish "routing response trailing bytes"
    return ⟨target, contacts⟩

end Kad

end Risuko
