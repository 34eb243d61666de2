import Risuko.Bencode.Value
import Risuko.Lib.Text

/-!
# Path components

The part of `core/metainfo.rs` that makes path components of byte strings, checks them, rewrites them for Windows, and renames paths
that would meet on disk. A string is the list of its characters. What depends on the platform, and the lower case of a string, comes
with a `Platform`.
-/

namespace Risuko

namespace Metainfo

/-- A string. -/
abbrev Text := List Char

instance lawfulText : LawfulBEq Text := inferInstance

/-- `cfg!(windows)`, `cfg!(target_os = "macos")` and `str::to_lowercase`. -/
structure Platform where
  windows : Bool
  macos : Bool
  toLowercase : Text → Text

/-- `format!` of a number. -/
def showNat (n : ℕ) : Text := (decimal n).map fun b => Char.ofNat b.toNat

/-- `replace('\\', "_")`. -/
def replaceBackslash (s : Text) : Text := s.map fun c => if c = '\\' then '_' else c

/-- `component_text`. -/
def componentText (bytes : List UInt8) : Text := replaceBackslash (Utf8.decodeLossy bytes)

/-- `is_ascii_alphabetic`. -/
def isAsciiAlphabetic (c : Char) : Bool := ('a' ≤ c && c ≤ 'z') || ('A' ≤ c && c ≤ 'Z')

/-- Whether a string begins with the letter of a drive. -/
def hasDrivePrefix : Text → Bool
  | letter :: colon :: _ => isAsciiAlphabetic letter && colon = ':'
  | _ => false

/-- `is_safe_component`. -/
def isSafeComponent (platform : Platform) (s : Text) : Bool :=
  if s.isEmpty || s = ['.'] || s = ['.', '.'] || s.any (fun c => c = '/' || c = '\\' || c = '\x00') then false
  else !(platform.windows && hasDrivePrefix s)

/-- `char::is_control`. -/
def isControl (c : Char) : Bool := c.toNat < 0x20 || (0x7F ≤ c.toNat && c.toNat ≤ 0x9F)

/-- `to_ascii_uppercase` of a character. -/
def toAsciiUppercase (c : Char) : Char := if 'a' ≤ c && c ≤ 'z' then Char.ofNat (c.toNat - 32) else c

/-- The names that Windows reserves. -/
def isReserved (stem : Text) : Bool :=
  stem ∈ ["CON".toList, "PRN".toList, "AUX".toList, "NUL".toList] ||
    (((stem.take 3 = "COM".toList) || (stem.take 3 = "LPT".toList)) && stem.length = 4 &&
      (stem.drop 3).all (fun c => '1' ≤ c && c ≤ '9'))

/-- `sanitize_windows_component`. -/
def sanitizeWindowsComponent (s : Text) : Text :=
  let replaced := s.map fun c => if isControl c || c ∈ ['<', '>', ':', '"', '|', '?', '*'] then '_' else c
  let out := (replaced.reverse.dropWhile fun c => c = '.' || c = ' ').reverse
  if out.isEmpty then ['_']
  else
    let stem := (out.takeWhile fun c => c ≠ '.').map toAsciiUppercase
    if isReserved stem then '_' :: out else out

/-- `fs_component`. -/
def fsComponent (platform : Platform) (s : Text) : Text := if platform.windows then sanitizeWindowsComponent s else s

/-- `disk_path_key`. -/
def diskPathKey (platform : Platform) (path : List Text) : Text :=
  let joined := ['/'].intercalate (path.map (fsComponent platform))
  if platform.windows || platform.macos then platform.toLowercase joined else joined

/-- `numbered_name`: the number stands before the last dot, unless that is the first character. -/
def numberedName (name : Text) (n : ℕ) : Text :=
  let number := " (".toList ++ (showNat n ++ [')'])
  let extension := (name.reverse.takeWhile fun c => c ≠ '.').reverse
  let dot := name.length - extension.length - 1
  if extension.length < name.length && 0 < dot then name.take dot ++ (number ++ name.drop dot) else name ++ number

/-! ## Renaming -/

/-- The loop of `dedupe_paths` that looks for a free name: the path, the number after it, and the keys that are taken. -/
def findFree (platform : Platform) (path : List Text) (last : Text) :
    ℕ → ℕ → Finset Text → Option (List Text × ℕ × Finset Text)
  | 0, _, _ => none
  | fuel + 1, next, taken =>
    let candidate := path.dropLast ++ [numberedName last next]
    let key := diskPathKey platform candidate
    if key ∈ taken then findFree platform path last fuel (next + 1) taken else some (candidate, next + 1, insert key taken)

/-- The loop of `dedupe_paths` over the paths, with the keys that are taken, those that were seen, and the next number for a key. -/
def dedupeFrom (platform : Platform) (fuel : ℕ) :
    List (List Text × Bool) → Finset Text → Finset Text → (Text → ℕ) → Option (List (List Text))
  | [], _, _, _ => some []
  | (path, isSkipped) :: rest, taken, seen, nextSuffix =>
    if isSkipped then (dedupeFrom platform fuel rest taken seen nextSuffix).map (path :: ·)
    else
      let key := diskPathKey platform path
      if key ∉ seen then (dedupeFrom platform fuel rest taken (insert key seen) nextSuffix).map (path :: ·)
      else
        match path.getLast? with
        | none => (dedupeFrom platform fuel rest taken seen nextSuffix).map (path :: ·)
        | some last =>
          match findFree platform path last fuel (nextSuffix key) taken with
          | none => none
          | some (candidate, next, taken) =>
            (dedupeFrom platform fuel rest taken (insert (diskPathKey platform candidate) seen)
              (Function.update nextSuffix key next)).map (candidate :: ·)

/-- `dedupe_paths`, with a bound on the turns of the loop that looks for a free name. -/
def dedupePaths (platform : Platform) (fuel : ℕ) (paths : List (List Text)) (skip : List Bool) : Option (List (List Text)) :=
  let marked := paths.zipIdx.map fun e => (e.1, skip.getD e.2 false || e.1.isEmpty)
  let taken := ((marked.filter fun e => !e.2).map fun e => diskPathKey platform e.1).toFinset
  dedupeFrom platform fuel marked taken ∅ fun _ => 1

end Metainfo

end Risuko
