import Mathlib.Data.Nat.Bitwise
import Risuko.Lib.Intervals
import Risuko.Lib.Text
import Risuko.Net

/-!
# The block list

`blocklist.rs`: the rules that block addresses, and the bans, of which the oldest goes when there are too many. Addresses are read as the standard
library reads them. Numbers of 32 and of 128 bits are natural numbers.
-/

namespace Risuko

namespace Blocklist

/-! ## Reading addresses -/

section Parser

variable {α : Type}

/-- `read_given_char`. -/
def readGivenChar (c : Char) : List Char → Option (List Char)
  | [] => none
  | d :: rest => if d = c then some rest else none

/-- `read_separator`. -/
def readSeparator (sep : Char) (index : ℕ) (inner : List Char → Option (α × List Char)) (text : List Char) : Option (α × List Char) :=
  if 0 < index then (readGivenChar sep text).bind inner else inner text

/-- `char::to_digit`. -/
def toDigit (radix : ℕ) (c : Char) : Option ℕ :=
  let value :=
    if '0' ≤ c ∧ c ≤ '9' then some (c.toNat - '0'.toNat)
    else if 'a' ≤ c ∧ c ≤ 'z' then some (c.toNat - 'a'.toNat + 10)
    else if 'A' ≤ c ∧ c ≤ 'Z' then some (c.toNat - 'A'.toNat + 10)
    else none
  value.filter (· < radix)

/-- `read_number`, of digits below a bound. -/
def readNumber (radix maxDigits bound : ℕ) (allowZeroPrefix : Bool) (text : List Char) : Option (ℕ × List Char) :=
  let digits := text.takeWhile fun c => (toDigit radix c).isSome
  let value := digits.foldl (fun n c => n * radix + (toDigit radix c).getD 0) 0
  if digits.isEmpty || maxDigits < digits.length || bound ≤ value || (!allowZeroPrefix && text.head? = some '0' && 1 < digits.length) then none
  else some (value, text.drop digits.length)

/-- `read_ipv4_addr`. -/
def readIpv4Addr (text : List Char) : Option (ℕ × List Char) :=
  [0, 1, 2, 3].foldlM
    (fun (state : ℕ × List Char) i => (readSeparator '.' i (readNumber 10 3 256 false) state.2).map fun group => (state.1 * 256 + group.1, group.2))
    (0, text)

/-- `read_groups`, with the groups that may still be read: those that were read, whether an IPv4 address was last, and the rest. -/
def readGroups : ℕ → ℕ → List Char → List ℕ × Bool × List Char
  | 0, _, text => ([], false, text)
  | limit + 1, i, text =>
    match (if 0 < limit then readSeparator ':' i readIpv4Addr text else none) with
    | some (v4, rest) => ([v4 / 2 ^ 16, v4 % 2 ^ 16], true, rest)
    | none =>
      match readSeparator ':' i (readNumber 16 4 (2 ^ 16) true) text with
      | none => ([], false, text)
      | some (group, rest) =>
        let later := readGroups limit (i + 1) rest
        (group :: later.1, later.2)

/-- The number that eight groups spell. -/
def fromGroups (groups : List ℕ) : ℕ := groups.foldl (fun n group => n * 2 ^ 16 + group) 0

/-- `read_ipv6_addr`. -/
def readIpv6Addr (text : List Char) : Option (ℕ × List Char) :=
  match readGroups 8 0 text with
  | (head, headIpv4, rest) =>
    if head.length = 8 then some (fromGroups head, rest)
    else if headIpv4 then none
    else
      match (readGivenChar ':' rest).bind (readGivenChar ':') with
      | none => none
      | some rest =>
        match readGroups (8 - (head.length + 1)) 0 rest with
        | (tail, _, rest) => some (fromGroups (head ++ List.replicate (8 - head.length - tail.length) 0 ++ tail), rest)

/-- `IpAddr::from_str`. -/
def parseIpAddr (text : List Char) : Option IpAddr :=
  match readIpv4Addr text with
  | some (v4, rest) => if rest.isEmpty then some (.v4 (UInt32.ofNat v4)) else none
  | none =>
    match readIpv6Addr text with
    | some (v6, rest) => if rest.isEmpty then some (.v6 v6) else none
    | none => none

/-- `u8::from_str`. -/
def parseU8 (text : List Char) : Option ℕ :=
  let digits := if text.head? = some '+' ∧ 1 < text.length then text.drop 1 else text
  match digits.mapM (toDigit 10) with
  | none => none
  | some values =>
    let value := values.foldl (fun n d => n * 10 + d) 0
    if digits.isEmpty || 256 ≤ value then none else some value

/-- `str::trim`. -/
def trim (text : List Char) : List Char := ((text.dropWhile isWhitespace).reverse.dropWhile isWhitespace).reverse

/-- `split_once`. -/
def splitOnce (sep : Char) (text : List Char) : Option (List Char × List Char) :=
  let before := text.takeWhile (· ≠ sep)
  if before.length < text.length then some (before, text.drop (before.length + 1)) else none

end Parser

/-! ## Rules -/

inductive Prefix where
  | v4 (network mask : ℕ)
  | v6 (network mask : ℕ)
  deriving DecidableEq

inductive ParsedEntry where
  | exact (ip : IpAddr)
  | cidr (rule : Prefix)
  deriving DecidableEq

/-- A mask of `w` bits of which the first `p` are set: `ipv4_mask` and `ipv6_mask`. -/
def mask (w p : ℕ) : ℕ := if p = 0 then 0 else ((2 ^ w - 1) <<< (w - min p w)) % 2 ^ w

def ipv4Mask (p : ℕ) : ℕ := mask 32 p

def ipv6Mask (p : ℕ) : ℕ := mask 128 p

def parsePrefix (ip : IpAddr) (p : ℕ) : Option Prefix :=
  match ip with
  | .v4 addr => if 32 < p then none else some (.v4 (addr.toNat &&& ipv4Mask p) (ipv4Mask p))
  | .v6 addr => if 128 < p then none else some (.v6 (addr &&& ipv6Mask p) (ipv6Mask p))

def parseEntry (raw : List Char) : Option ParsedEntry :=
  let trimmed := trim raw
  if trimmed.isEmpty then none
  else
    match splitOnce '/' trimmed with
    | some (addr, prefixStr) =>
      match parseU8 prefixStr with
      | none => none
      | some p =>
        match parseIpAddr addr with
        | none => none
        | some ip => (parsePrefix ip p).map .cidr
    | none => (parseIpAddr trimmed).map .exact

/-- `merge_ranges`. -/
def mergeRanges (ranges : List (ℕ × ℕ)) : List (ℕ × ℕ) := Intervals.merge ranges

/-- `range_contains`. -/
def rangeContains (ranges : List (ℕ × ℕ)) (value : ℕ) : Bool := Intervals.lookup ranges value

structure PreparedRules where
  exact : List IpAddr
  prefixes : List Prefix
  v4Ranges : List (ℕ × ℕ)
  v6Ranges : List (ℕ × ℕ)

/-- `PreparedRules::parse`. A set is the list of what was inserted. -/
def PreparedRules.parse (entries : List (List Char)) : PreparedRules :=
  let exact := entries.filterMap fun entry =>
    match parseEntry entry with
    | some (.exact ip) => some ip.toCanonical
    | _ => none
  let prefixes := entries.filterMap fun entry =>
    match parseEntry entry with
    | some (.cidr rule) => some rule
    | _ => none
  let v4 := prefixes.filterMap fun rule =>
    match rule with
    | .v4 network mask => some (network, network ||| (2 ^ 32 - 1 - mask))
    | .v6 .. => none
  let v6 := prefixes.filterMap fun rule =>
    match rule with
    | .v4 .. => none
    | .v6 network mask => some (network, network ||| (2 ^ 128 - 1 - mask))
  ⟨exact, prefixes, mergeRanges v4, mergeRanges v6⟩

/-! ## The list -/

/-- `MAX_BANNED`. -/
def maxBanned : ℕ := 4096

structure BlockList where
  exact : List IpAddr
  prefixes : List Prefix
  v4Ranges : List (ℕ × ℕ)
  v6Ranges : List (ℕ × ℕ)
  banned : List IpAddr
  banOrder : List IpAddr
  banRevision : UInt32
  revision : UInt32

namespace BlockList

/-- `default`. -/
def empty : BlockList := ⟨[], [], [], [], [], [], 0, 0⟩

def isEmpty (list : BlockList) : Bool := list.exact.isEmpty && list.prefixes.isEmpty && list.banned.isEmpty

/-- `to_ipv4_mapped`. -/
def toIpv4Mapped (ip : ℕ) : Option ℕ := if ip / 2 ^ 32 = 0xffff then some (ip % 2 ^ 32) else none

def contains (list : BlockList) (ip : IpAddr) : Bool :=
  if list.isEmpty then false
  else
    let canonical := ip.toCanonical
    if list.exact.contains canonical || list.banned.contains canonical then true
    else
      match ip with
      | .v4 addr => rangeContains list.v4Ranges addr.toNat
      | .v6 addr => (toIpv4Mapped addr).any (rangeContains list.v4Ranges) || rangeContains list.v6Ranges addr

def ban (list : BlockList) (ip : IpAddr) : BlockList × Bool :=
  let ip := ip.toCanonical
  if list.banned.contains ip then (list, false)
  else
    let list := { list with banned := ip :: list.banned, banOrder := list.banOrder ++ [ip] }
    let list :=
      if maxBanned < list.banned.length then
        match list.banOrder with
        | [] => list
        | oldest :: rest => { list with banned := list.banned.erase oldest, banOrder := rest }
      else list
    ({ list with banRevision := list.banRevision + 1 }, true)

/-- `replace_prepared`. -/
def replacePrepared (list : BlockList) (rules : PreparedRules) : BlockList :=
  { list with
    exact := rules.exact
    prefixes := rules.prefixes
    v4Ranges := rules.v4Ranges
    v6Ranges := rules.v6Ranges
    revision := list.revision + 1 }

def replace (list : BlockList) (entries : List (List Char)) : BlockList := list.replacePrepared (.parse entries)

end BlockList

/-! ## What a list blocks -/

/-- A call that changes the list. -/
inductive Call where
  | replace (entries : List (List Char))
  | ban (ip : IpAddr)

def BlockList.call (list : BlockList) : Call → BlockList
  | .replace entries => list.replace entries
  | .ban ip => (list.ban ip).1

/-- The list after calls, the first one first. -/
def BlockList.run (calls : List Call) : BlockList := calls.foldl .call .empty

/-- The rules of the last replacement. -/
def currentRules (calls : List Call) : List (List Char) :=
  calls.foldl (fun rules call => match call with | .replace entries => entries | .ban _ => rules) []

/-- The addresses of the last `maxBanned` bans, the oldest first, when the ban of an address that is among them changes nothing. -/
def recentBans (calls : List Call) : List IpAddr :=
  calls.foldl
    (fun bans call =>
      match call with
      | .replace _ => bans
      | .ban ip => if ip.toCanonical ∈ bans then bans else (bans ++ [ip.toCanonical]).drop ((bans ++ [ip.toCanonical]).length - maxBanned))
    []

/-- The address as an IPv4 address, if it is one. -/
def ipv4Form : IpAddr → Option ℕ
  | .v4 addr => some addr.toNat
  | .v6 addr => BlockList.toIpv4Mapped addr

/-- Whether a rule blocks an address: one of IPv4 in either form, a range of IPv6 only what is written as IPv6. -/
def ParsedEntry.Covers : ParsedEntry → IpAddr → Prop
  | .exact rule, ip => rule.toCanonical = ip.toCanonical
  | .cidr (.v4 network mask), ip => ∃ addr ∈ ipv4Form ip, addr &&& mask = network
  | .cidr (.v6 network mask), .v6 addr => addr < 2 ^ 128 ∧ addr &&& mask = network
  | .cidr (.v6 _ _), .v4 _ => False

end Blocklist

end Risuko
