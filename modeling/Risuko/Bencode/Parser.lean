import Risuko.Bencode.Value

/-!
# The bencode parser

`bencode.rs`: `decode`, `decode_all` and their forms for input from outside. A parser keeps what is left of its input and the
position there. The depth of a value is counted down from the limit: a value is parsed with the room that is left for nesting.
-/

namespace Risuko

namespace Bencode

structure DecodeLimits where
  maxInputLen : Nat
  maxDepth : Nat
  maxValues : Nat

inductive DictMode where
  | canonical
  | relaxed
  deriving DecidableEq

def maxStrictDepth : Nat := 256

/-- What a parser does not change. -/
structure Rules where
  dictMode : DictMode
  limits : Option DecodeLimits

/-- `Parser::strict`. -/
def Rules.strict : Rules := { dictMode := .canonical, limits := none }

/-- `Parser::external`. -/
def Rules.external (limits : DecodeLimits) : Rules := { dictMode := .relaxed, limits := some limits }

/-- The deepest level at which a value may stand. -/
def Rules.maxDepth (rules : Rules) : Nat :=
  match rules.limits with
  | some limits => limits.maxDepth
  | none => maxStrictDepth

/-- The state of a parser. -/
structure Parser where
  rest : List UInt8
  pos : Nat
  values : Nat

structure Decoded where
  value : Value
  span : Nat × Nat

namespace Parser

/-- `peek`. -/
def peek (p : Parser) : Except Error UInt8 :=
  match p.rest with
  | b :: _ => .ok b
  | [] => .error (.unexpectedEof p.pos)

/-- Go on by some bytes. -/
def advance (p : Parser) (n : Nat) : Parser := { p with rest := p.rest.drop n, pos := p.pos + n }

/-- `note_value`, for a depth within the limit. The count of values saturates. -/
def noteValue (rules : Rules) (p : Parser) : Except Error Parser :=
  match rules.limits with
  | some limits =>
    if limits.maxValues ≤ p.values then .error (.valueLimit limits.maxValues)
    else .ok { p with values := min (p.values + 1) (2 ^ 64 - 1) }
  | none => .ok { p with values := min (p.values + 1) (2 ^ 64 - 1) }

/-- The bytes before the next `stop`, for the loops that look for one. -/
def takeUntil (stop : UInt8) : List UInt8 → Nat → Except Error (List UInt8)
  | [], pos => .error (.unexpectedEof pos)
  | b :: bs, pos =>
    if b = stop then .ok []
    else
      match takeUntil stop bs (pos + 1) with
      | .error e => .error e
      | .ok digits => .ok (b :: digits)

/-! ## Scalars -/

/-- The digits of a number that may have a plus sign. -/
def withoutPlus (s : List UInt8) : List UInt8 := if s.head? = some (ascii '+') then s.tail else s

/-- `str::parse::<u64>`. -/
def parseU64 (s : List UInt8) : Option Nat := (parseDigits (withoutPlus s)).filter (fun n => n < 2 ^ 64)

/-- `str::parse::<i64>`. -/
def parseI64 (s : List UInt8) : Option Int :=
  if s.head? = some (ascii '-') then ((parseDigits s.tail).filter (fun n => n ≤ 2 ^ 63)).map (fun n : Nat => -(n : Int))
  else ((parseDigits (withoutPlus s)).filter (fun n => n < 2 ^ 63)).map (fun n : Nat => (n : Int))

/-- Whether bytes are well-formed UTF-8. -/
def isUtf8 (s : List UInt8) : Bool := (ByteArray.mk s.toArray).validateUTF8

/-- Whether a zero comes first, after the minus sign if there is one, and more digits follow. -/
def hasLeadingZero (digits : List UInt8) : Bool :=
  let leading := if digits.head? = some (ascii '-') then digits.tail else digits
  1 < digits.length && leading.head? = some (ascii '0')

/-- The checks of `parse_int` on the text between the brackets. A text that parses as a number is ASCII, so it makes no difference
that `from_utf8` is asked only about the others. -/
def intOfDigits (start : Nat) (digits : List UInt8) : Except Error Int64 :=
  if digits.isEmpty then .error (.badInteger start "empty")
  else if digits.head? = some (ascii '+') then .error (.badInteger start "leading plus")
  else if digits = [ascii '-', ascii '0'] then .error (.badInteger start "negative zero")
  else if hasLeadingZero digits then .error (.badInteger start "leading zero")
  else
    match parseI64 digits with
    | some n => .ok (Int64.ofInt n)
    | none => if isUtf8 digits then .error (.badInteger start "out of range") else .error (.badInteger start "non-ascii")

/-- `parse_int`. -/
def parseInt (p : Parser) : Except Error (Value × Parser) :=
  let p := p.advance 1
  match takeUntil (ascii 'e') p.rest p.pos with
  | .error e => .error e
  | .ok digits =>
    match intOfDigits p.pos digits with
    | .error e => .error e
    | .ok n => .ok (.int n, p.advance (digits.length + 1))

/-- The checks of `parse_bytes` on the text of the length. -/
def lengthOfDigits (start : Nat) (digits : List UInt8) : Except Error Nat :=
  if 1 < digits.length && digits.head? = some (ascii '0') then .error (.badLength start "leading zero")
  else
    match parseU64 digits with
    | some len => .ok len
    | none => if isUtf8 digits then .error (.badLength start "parse") else .error (.badLength start "non-ascii")

/-- `parse_bytes`. The position and the length are at most `isize::MAX` each, so their sum does not overflow. -/
def parseBytes (p : Parser) : Except Error (Value × Parser) :=
  match takeUntil (ascii ':') p.rest p.pos with
  | .error e => .error e
  | .ok digits =>
    match lengthOfDigits p.pos digits with
    | .error e => .error e
    | .ok len =>
      if h : isizeMax < len then .error (.stringTooLong p.pos len)
      else
        let p := p.advance (digits.length + 1)
        if p.rest.length < len then .error (.unexpectedEof (p.pos + p.rest.length))
        else
          .ok (.bytes ⟨p.rest.take len, le_trans (List.length_take_le _ _) (not_lt.mp h)⟩, p.advance len)

/-! ## Containers -/

/-- The loop of `parse_list`, with the parser of the elements. Each turn takes a byte or more, and the fuel bounds the turns. -/
def parseItems (element : Parser → Except Error (Decoded × Parser)) : Nat → Parser → Except Error (List Value × Parser)
  | 0, p => .error (.unexpectedEof p.pos)
  | fuel + 1, p =>
    match p.peek with
    | .error e => .error e
    | .ok b =>
      if b = ascii 'e' then .ok ([], p.advance 1)
      else
        match element p with
        | .error e => .error e
        | .ok (d, p) =>
          match parseItems element fuel p with
          | .error e => .error e
          | .ok (items, p) => .ok (d.value :: items, p)

/-- The check of `parse_dict` on a key: the keys before it, and the set of them once they were found out of order. -/
def noteKey (rules : Rules) (items : List (ByteVec × Value)) (seen : Option (Finset (List UInt8))) (key : List UInt8) (keyPos : Nat) :
    Except Error (Option (Finset (List UInt8))) :=
  match rules.dictMode with
  | .relaxed => .ok seen
  | .canonical =>
    match seen with
    | some set => if key ∈ set then .error (.badDictOrder keyPos) else .ok (some (insert key set))
    | none =>
      match items.getLast? with
      | none => .ok none
      | some (prev, _) =>
        if key ≤ prev.data then
          let set := (Value.keys items).toFinset
          if key ∈ set then .error (.badDictOrder keyPos) else .ok (some (insert key set))
        else .ok none

/-- The loop of `parse_dict`, with the parser of keys and values. -/
def parseEntries (rules : Rules) (element : Parser → Except Error (Decoded × Parser)) :
    Nat → Parser → List (ByteVec × Value) → Option (Finset (List UInt8)) → Except Error (List (ByteVec × Value) × Parser)
  | 0, p, _, _ => .error (.unexpectedEof p.pos)
  | fuel + 1, p, items, seen =>
    match p.peek with
    | .error e => .error e
    | .ok b =>
      if b = ascii 'e' then .ok (items, p.advance 1)
      else
        let keyPos := p.pos
        match element p with
        | .error e => .error e
        | .ok (d, p) =>
          match d.value with
          | .bytes key =>
            match noteKey rules items seen key.data keyPos with
            | .error e => .error e
            | .ok seen =>
              match element p with
              | .error e => .error e
              | .ok (d, p) => parseEntries rules element fuel p (items ++ [(key, d.value)]) seen
          | _ => .error (.nonStringDictKey keyPos)

/-- `parse_list`. -/
def parseList (element : Parser → Except Error (Decoded × Parser)) (p : Parser) : Except Error (Value × Parser) :=
  let p := p.advance 1
  match parseItems element (p.rest.length + 1) p with
  | .error e => .error e
  | .ok (items, p) => .ok (.list items, p)

/-- `parse_dict`. -/
def parseDict (rules : Rules) (element : Parser → Except Error (Decoded × Parser)) (p : Parser) : Except Error (Value × Parser) :=
  let p := p.advance 1
  match parseEntries rules element (p.rest.length + 1) p [] none with
  | .error e => .error e
  | .ok (items, p) => .ok (.dict items, p)

/-- `parse_value` after the value was noted: what its first byte says it is. -/
def parseByKind (rules : Rules) (element : Parser → Except Error (Decoded × Parser)) (p : Parser) : Except Error (Value × Parser) :=
  match p.peek with
  | .error e => .error e
  | .ok b =>
    if b = ascii 'i' then p.parseInt
    else if b = ascii 'l' then p.parseList element
    else if b = ascii 'd' then p.parseDict rules element
    else if isAsciiDigit b then p.parseBytes
    else .error (.unexpectedByte b p.pos)

/-- `parse_value`, with the room that is left for nesting: one more than the limit lies above the depth. -/
def parseValue (rules : Rules) : Nat → Parser → Except Error (Decoded × Parser)
  | 0, p => .error (.depthLimit p.pos rules.maxDepth)
  | room + 1, p =>
    match noteValue rules p with
    | .error e => .error e
    | .ok p =>
      match parseByKind rules (parseValue rules room) p with
      | .error e => .error e
      | .ok (value, p') => .ok ({ value := value, span := (p.pos, p'.pos) }, p')

/-- `parse_value(0)` from the start of an input. -/
def run (rules : Rules) (input : List UInt8) : Except Error Decoded :=
  match parseValue rules (rules.maxDepth + 1) { rest := input, pos := 0, values := 0 } with
  | .error e => .error e
  | .ok (d, _) => .ok d

end Parser

/-- `decode`. -/
def decode (input : List UInt8) : Except Error Decoded := Parser.run .strict input

/-- `decode_all`. -/
def decodeAll (input : List UInt8) : Except Error Value :=
  match decode input with
  | .error e => .error e
  | .ok d => if d.span.2 ≠ input.length then .error .trailingBytes else .ok d.value

/-- `decode_external`. -/
def decodeExternal (input : List UInt8) (limits : DecodeLimits) : Except Error Decoded :=
  if limits.maxInputLen < input.length then .error (.inputLimit input.length limits.maxInputLen)
  else Parser.run (.external limits) input

/-- `is_ascii_whitespace`. -/
def isAsciiWhitespace (b : UInt8) : Bool := b = 0x20 || b = 0x09 || b = 0x0a || b = 0x0c || b = 0x0d

/-- `decode_all_external`. -/
def decodeAllExternal (input : List UInt8) (limits : DecodeLimits) : Except Error Value :=
  match decodeExternal input limits with
  | .error e => .error e
  | .ok d => if (input.drop d.span.2).all isAsciiWhitespace then .ok d.value else .error .trailingBytes

end Bencode

end Risuko
