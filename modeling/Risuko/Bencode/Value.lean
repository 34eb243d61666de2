import Risuko.Lib.Decimal
import Risuko.Lib.OrdMap
import Risuko.Lib.Bits

/-!
# Bencode values and their encoding

`bencode.rs`: values and `encode_to_writer`. A byte string carries the bound that any vector of the program keeps, and an integer
has 64 bits, so no value exists here that could not exist there. `Value.render` writes a value with the entries of its
dictionaries in the order they are listed in; the encoder sorts them.
-/

namespace Risuko

namespace Bencode

/-- `isize::MAX`, which bounds the length of every vector. -/
def isizeMax : Nat := 2 ^ 63 - 1

/-- A vector of bytes. -/
@[ext]
structure ByteVec where
  data : List UInt8
  length_le : data.length ≤ isizeMax
  deriving DecidableEq

inductive Value where
  | int (n : Int64)
  | bytes (b : ByteVec)
  | list (items : List Value)
  | dict (items : List (ByteVec × Value))

inductive Error where
  | unexpectedEof (pos : Nat)
  | unexpectedByte (byte : UInt8) (pos : Nat)
  | badInteger (pos : Nat) (reason : String)
  | badLength (pos : Nat) (reason : String)
  | stringTooLong (pos len : Nat)
  | badDictOrder (pos : Nat)
  | nonStringDictKey (pos : Nat)
  | trailingBytes
  | inputLimit (len max : Nat)
  | depthLimit (pos max : Nat)
  | valueLimit (max : Nat)
  deriving DecidableEq

/-- The byte of an ASCII character. -/
def ascii (c : Char) : UInt8 := UInt8.ofNat c.toNat

/-! ## Scalars -/

/-- An integer as `write!` puts it. -/
def showInt (n : Int) : List UInt8 := if n < 0 then ascii '-' :: decimal n.natAbs else decimal n.natAbs

def renderInt (n : Int64) : List UInt8 := ascii 'i' :: (showInt n.toInt ++ [ascii 'e'])

def renderBytes (b : List UInt8) : List UInt8 := decimal b.length ++ ascii ':' :: b

/-! ## Encoding -/

/-- The loop of `encode_to_writer` that fills the sorted map of a dictionary, with the values encoded already. -/
def sortedMap : List (ByteVec × List UInt8) → OrdMap (List UInt8) (List UInt8) → Except Error (OrdMap (List UInt8) (List UInt8))
  | [], sorted => .ok sorted
  | (k, out) :: items, sorted =>
    if sorted.contains k.data then .error (.badDictOrder 0) else sortedMap items (sorted.insert k.data out)

-- A writer into memory does not fail, so the only error is a repeated key, and it does not say where: it makes no difference that
-- the values of a dictionary are encoded here before its keys are compared.
mutual

/-- `encode_to_writer`, into a vector. -/
def encodeToWriter : Value → Except Error (List UInt8)
  | .int n => .ok (renderInt n)
  | .bytes b => .ok (renderBytes b.data)
  | .list items =>
    match encodeItems items with
    | .error e => .error e
    | .ok out => .ok (ascii 'l' :: (out ++ [ascii 'e']))
  | .dict items =>
    match encodeEntries items with
    | .error e => .error e
    | .ok encoded =>
      match sortedMap encoded OrdMap.empty with
      | .error e => .error e
      | .ok sorted => .ok (ascii 'd' :: (sorted.entries.flatMap (fun e => renderBytes e.1 ++ e.2) ++ [ascii 'e']))

def encodeItems : List Value → Except Error (List UInt8)
  | [] => .ok []
  | v :: items =>
    match encodeToWriter v with
    | .error e => .error e
    | .ok out =>
      match encodeItems items with
      | .error e => .error e
      | .ok outs => .ok (out ++ outs)

def encodeEntries : List (ByteVec × Value) → Except Error (List (ByteVec × List UInt8))
  | [] => .ok []
  | (k, v) :: items =>
    match encodeToWriter v with
    | .error e => .error e
    | .ok out =>
      match encodeEntries items with
      | .error e => .error e
      | .ok outs => .ok ((k, out) :: outs)

end

/-- `encode_to_vec`. It panics where `encode_to_writer` fails. -/
def encodeToVec (v : Value) : Option (List UInt8) := (encodeToWriter v).toOption

/-! ## What a value is like -/

namespace Value

mutual

/-- A value written with the entries of its dictionaries as they are listed. -/
def render : Value → List UInt8
  | .int n => renderInt n
  | .bytes b => renderBytes b.data
  | .list items => ascii 'l' :: (renderItems items ++ [ascii 'e'])
  | .dict items => ascii 'd' :: (renderEntries items ++ [ascii 'e'])

def renderItems : List Value → List UInt8
  | [] => []
  | v :: items => render v ++ renderItems items

def renderEntries : List (ByteVec × Value) → List UInt8
  | [] => []
  | (k, v) :: items => renderBytes k.data ++ (render v ++ renderEntries items)

end

mutual

/-- How deep a value is nested: what a container holds, the keys of a dictionary included, is one level below it. -/
def nesting : Value → Nat
  | .int _ => 0
  | .bytes _ => 0
  | .list items => nestingItems items
  | .dict items => nestingEntries items

def nestingItems : List Value → Nat
  | [] => 0
  | v :: items => max (nesting v + 1) (nestingItems items)

def nestingEntries : List (ByteVec × Value) → Nat
  | [] => 0
  | (_, v) :: items => max (nesting v + 1) (nestingEntries items)

end

/-- The keys of a dictionary. -/
def keys (items : List (ByteVec × Value)) : List (List UInt8) := items.map (fun e => e.1.data)

mutual

/-- No dictionary of the value has a key twice. -/
def UniqueKeys : Value → Prop
  | .int _ => True
  | .bytes _ => True
  | .list items => UniqueKeysItems items
  | .dict items => (keys items).Nodup ∧ UniqueKeysEntries items

def UniqueKeysItems : List Value → Prop
  | [] => True
  | v :: items => UniqueKeys v ∧ UniqueKeysItems items

def UniqueKeysEntries : List (ByteVec × Value) → Prop
  | [] => True
  | (_, v) :: items => UniqueKeys v ∧ UniqueKeysEntries items

end

mutual

/-- Every dictionary of the value has its keys in increasing byte order. -/
def KeysIncreasing : Value → Prop
  | .int _ => True
  | .bytes _ => True
  | .list items => KeysIncreasingItems items
  | .dict items => (keys items).Pairwise (· < ·) ∧ KeysIncreasingEntries items

def KeysIncreasingItems : List Value → Prop
  | [] => True
  | v :: items => KeysIncreasing v ∧ KeysIncreasingItems items

def KeysIncreasingEntries : List (ByteVec × Value) → Prop
  | [] => True
  | (_, v) :: items => KeysIncreasing v ∧ KeysIncreasingEntries items

end

/-- The order of entries by key. -/
def entryLe (e e' : ByteVec × Value) : Prop := e.1.data ≤ e'.1.data

instance : DecidableRel entryLe := fun e e' => inferInstanceAs (Decidable (e.1.data ≤ e'.1.data))

mutual

/-- A value with every dictionary put in key order. -/
def canonical : Value → Value
  | .int n => .int n
  | .bytes b => .bytes b
  | .list items => .list (canonicalItems items)
  | .dict items => .dict ((canonicalEntries items).insertionSort entryLe)

def canonicalItems : List Value → List Value
  | [] => []
  | v :: items => canonical v :: canonicalItems items

def canonicalEntries : List (ByteVec × Value) → List (ByteVec × Value)
  | [] => []
  | (k, v) :: items => (k, canonical v) :: canonicalEntries items

end

mutual

/-- Two values that differ in the order of the entries of their dictionaries only. -/
inductive Reordered : Value → Value → Prop where
  | int (n : Int64) : Reordered (.int n) (.int n)
  | bytes (b : ByteVec) : Reordered (.bytes b) (.bytes b)
  | list {items items' : List Value} : ReorderedItems items items' → Reordered (.list items) (.list items')
  | dict {items mid items' : List (ByteVec × Value)} : items.Perm mid → ReorderedEntries mid items' →
      Reordered (.dict items) (.dict items')

inductive ReorderedItems : List Value → List Value → Prop where
  | nil : ReorderedItems [] []
  | cons {v v' : Value} {items items' : List Value} : Reordered v v' → ReorderedItems items items' →
      ReorderedItems (v :: items) (v' :: items')

inductive ReorderedEntries : List (ByteVec × Value) → List (ByteVec × Value) → Prop where
  | nil : ReorderedEntries [] []
  | cons (k : ByteVec) {v v' : Value} {items items' : List (ByteVec × Value)} : Reordered v v' → ReorderedEntries items items' →
      ReorderedEntries ((k, v) :: items) ((k, v') :: items')

end

end Value

end Bencode

end Risuko
