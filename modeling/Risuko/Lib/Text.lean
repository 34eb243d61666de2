import Mathlib.Tactic

/-!
# Text: decoding UTF-8

A byte string is a sequence of encoded characters and of sequences that encode none. What encodes none is the longest start of a
character that cannot go on, or one byte; lossy decoding puts a replacement character for each, and strict decoding refuses the
string.
-/

namespace Risuko

namespace Utf8

/-- A byte that goes on with a character. -/
def isContinuation (b : UInt8) : Bool := 0x80 ≤ b && b ≤ 0xBF

/-- The bounds of the second byte of a character of three or four bytes: no overlong form, no surrogate, nothing above the last
code point. -/
def secondBounds (first : UInt8) : UInt8 × UInt8 :=
  if first = 0xE0 then (0xA0, 0xBF)
  else if first = 0xED then (0x80, 0x9F)
  else if first = 0xF0 then (0x90, 0xBF)
  else if first = 0xF4 then (0x80, 0x8F)
  else (0x80, 0xBF)

/-- How many bytes the character has that begins with a byte. -/
def width (first : UInt8) : ℕ :=
  if first < 0x80 then 1
  else if 0xC2 ≤ first && first ≤ 0xDF then 2
  else if 0xE0 ≤ first && first ≤ 0xEF then 3
  else if 0xF0 ≤ first && first ≤ 0xF4 then 4
  else 0

/-- The bytes behind the first one that go on with its character. -/
def continuation (first : UInt8) (rest : List UInt8) : List UInt8 :=
  match rest with
  | [] => []
  | second :: rest =>
    let bounds := secondBounds first
    if bounds.1 ≤ second && second ≤ bounds.2 then second :: (rest.take (width first - 2)).takeWhile isContinuation else []

/-- The code point of a character, from the bits of its first byte and six bits of each byte behind it. -/
def codePoint (first : UInt8) (behind : List UInt8) : ℕ :=
  let lead := match behind.length with
    | 0 => first.toNat
    | 1 => first.toNat % 32
    | 2 => first.toNat % 16
    | _ => first.toNat % 8
  behind.foldl (fun n b => n * 64 + b.toNat % 64) lead

/-- The character at the front of a string, or none, and how many bytes were read. -/
def next (first : UInt8) (rest : List UInt8) : Option Char × ℕ :=
  if width first = 0 then (none, 1)
  else if width first = 1 then (some (Char.ofNat first.toNat), 1)
  else
    let behind := continuation first rest
    if behind.length + 1 = width first then (some (Char.ofNat (codePoint first behind)), width first) else (none, behind.length + 1)

/-- The characters of a string. Each turn reads a byte or more, and the fuel bounds the turns. -/
def decodeAll : ℕ → List UInt8 → List (Option Char)
  | 0, _ => []
  | _, [] => []
  | fuel + 1, first :: rest =>
    let read := next first rest
    read.1 :: decodeAll fuel (rest.drop (read.2 - 1))

/-- Strict decoding. -/
def decode (bytes : List UInt8) : Option (List Char) := (decodeAll bytes.length bytes).mapM id

/-- Lossy decoding. -/
def decodeLossy (bytes : List UInt8) : List Char := (decodeAll bytes.length bytes).map fun c => c.getD '\uFFFD'

-- A character of three bytes, then one cut after its second byte, then a byte that begins none.
example : decodeLossy [0xE2, 0x82, 0xAC, 0xE2, 0x82, 0x41, 0xFF] = ['€', '\uFFFD', 'A', '\uFFFD'] := by decide

end Utf8

/-- `char::is_whitespace`. -/
def isWhitespace (c : Char) : Bool :=
  (9 ≤ c.toNat && c.toNat ≤ 13) || c.toNat ∈ [0x20, 0x85, 0xA0, 0x1680, 0x2028, 0x2029, 0x202F, 0x205F, 0x3000] ||
    (0x2000 ≤ c.toNat && c.toNat ≤ 0x200A)

end Risuko
