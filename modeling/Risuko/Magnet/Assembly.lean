import Mathlib.Tactic

/-!
# Metadata in the making

`Assembly` of `magnet.rs`: the blocks of an info dictionary that peers are asked for. Each block can be claimed by several peers. The
memory the blocks take is reserved from a budget that all assemblies share.
-/

namespace Risuko

def metaPieceSize : Nat := 16384
def maxMetadataSize : Nat := 32 * 1024 * 1024
def peerMetadataWindow : Nat := 16

/-- An `Assembly` with its `AssemblyState`. `held` is what its `ReservedBytes` hold. -/
structure Assembly where
  size : Nat
  pieces : List (Option (List UInt8))
  claimed : List UInt8
  held : Nat

namespace Assembly

def numPiecesOf (size : Nat) : Nat := (size + metaPieceSize - 1) / metaPieceSize

def new (size : Nat) : Assembly where
  size := size
  pieces := List.replicate (numPiecesOf size) none
  claimed := List.replicate (numPiecesOf size) 0
  held := 0

def numPieces (a : Assembly) : Nat := numPiecesOf a.size

def pieceLen (a : Assembly) (idx : Nat) : Nat :=
  if idx + 1 = a.numPieces then a.size - idx * metaPieceSize else metaPieceSize

/-- The piece is one of the assembly and not there yet. -/
def missing (a : Assembly) (idx : Nat) : Bool := a.pieces[idx]? = some none

def missingAllIn (a : Assembly) (set : List Nat) : Bool := (List.range a.pieces.length).all fun i => !a.missing i || i ∈ set

def isComplete (a : Assembly) : Bool := a.pieces.all Option.isSome

/-- The loop of a pass of `claim`: pieces that `want` takes and that are not in `out` yet, up to `n` of them. -/
def claimLoop (n : Nat) (want : Nat → Bool) : List Nat → List Nat → List Nat
  | [], out => out
  | idx :: rest, out =>
    if n ≤ out.length then out else claimLoop n want rest (if want idx && !(idx ∈ out) then out ++ [idx] else out)

/-- One pass of `claim`, over the unclaimed pieces or over the claimed ones. -/
def claimPass (a : Assembly) (n : Nat) (skip : List Nat) (wantUnclaimed : Bool) (out : List Nat) : List Nat :=
  claimLoop n (fun idx => a.missing idx && !(idx ∈ skip) && (a.claimed.getD idx 0 = 0 : Bool) == wantUnclaimed)
    (List.range a.pieces.length) out

/-- The pieces `claim` answers with. -/
def claimable (a : Assembly) (n : Nat) (skip : List Nat) : List Nat := a.claimPass n skip false (a.claimPass n skip true [])

/-- `claim`: the pieces, and the assembly with their counts raised. -/
def claim (a : Assembly) (n : Nat) (skip : List Nat) : List Nat × Assembly :=
  let out := a.claimable n skip
  (out, { a with claimed := out.foldl (fun claimed idx => claimed.modify idx fun c => if c = 255 then 255 else c + 1) a.claimed })

def unclaim (a : Assembly) (idx : Nat) : Assembly :=
  { a with claimed := a.claimed.modify idx fun c => if c = 0 then 0 else c - 1 }

/-- `store` with `free` bytes left in the budget: the assembly, and the bytes it took. `none` when there is no room. -/
def store (a : Assembly) (free idx : Nat) (block : List UInt8) : Option (Assembly × Nat) :=
  if a.missing idx then
    if block.length ≤ free then some ({ a with pieces := a.pieces.set idx (some block), held := a.held + block.length }, block.length)
    else none
  else some (a, 0)

def assemble (a : Assembly) : Option (List UInt8) := (a.pieces.mapM id).map List.flatten

def reset (a : Assembly) : Assembly := { a with pieces := a.pieces.map fun _ => none, held := 0 }

def evictableBytes (a : Assembly) : Nat := if a.size ≤ a.held then 0 else a.held

end Assembly

end Risuko
