import Risuko.Magnet.Assembly

/-!
# Claims and the guard that undoes them

The loop of `try_fetch_from_peer_inner` once more, with every await in it: between `claim` and the guard that undoes it the requests are
sent one at a time, and a send can fail or the fetch can be dropped in it. What a peer sends is any message. An assembly is dropped, with
what it has reserved, when nothing holds it: neither `current`, nor a fetch, nor a scan that looks for a victim.
-/

namespace Risuko

namespace Claims

/-- Where a fetch is. -/
inductive Place where
  /-- `while !assembly.is_complete()`. -/
  | loop
  | claiming
  /-- The `for` loop over what `claim` has answered; `pending` is not in the guard yet. -/
  | recording (pending : List ℕ)
  /-- In the send of a request. -/
  | requesting (pending : List ℕ)
  /-- `claims.mine.is_empty() && assembly.missing_all_in(&rejected)`. -/
  | judging
  /-- `rx.recv()`. -/
  | waiting
  /-- In the send of a reject. -/
  | rejecting
  /-- `assembly.store` in `MetadataShare::store`. -/
  | storing (idx : ℕ) (block : List UInt8)
  /-- `heaviest_other`, with the assemblies still to be looked at and the heaviest so far. -/
  | scanning (idx : ℕ) (block : List UInt8) (todo : List ℕ) (best : Option (ℕ × ℕ))
  | evicting (idx : ℕ) (block : List UInt8) (victim : ℕ)
  /-- `claims.release`. -/
  | releasing (idx : ℕ)
  /-- The drop of the guard, at the end of the loop or because the fetch ends. -/
  | dropping (ends : Bool)
  /-- `assemble_checked`. -/
  | assembling
  /-- `assembly.reset()` after a mismatch. -/
  | resetting
  /-- `share.private_assembly(total_size)`. -/
  | replacing
  /-- The metadata is there; the piece layers are fetched. -/
  | layers
  | ended

/-- What is claimed and not in the guard. -/
def Place.pending : Place → List ℕ
  | recording pending | requesting pending => pending
  | _ => []

/-- The assembly that a scan for a victim holds. -/
def Place.victim : Place → Option ℕ
  | scanning _ _ _ (some (_, v)) => some v
  | evicting _ _ v => some v
  | _ => none

structure Fetch where
  totalSize : ℕ
  assembly : ℕ
  isPrivate : Bool
  rejected : List ℕ
  /-- `claims.mine`. -/
  mine : List ℕ
  place : Place

/-- What a fetch receives. -/
inductive Message where
  | data (idx : ℕ) (block : List UInt8)
  | reject (idx : ℕ)
  | request
  /-- A message that does not matter, or none for 250 ms. -/
  | other
  /-- The peer is gone, or sent what does not parse. -/
  | gone

inductive Action where
  /-- A fetch whose peer has told a size. -/
  | attach (size : ℕ)
  /-- The next operation of a fetch that waits for nothing. -/
  | turn (f : ℕ)
  /-- A send returns. -/
  | sent (f : ℕ) (ok : Bool)
  | receive (f : ℕ) (message : Message)
  /-- A fetch is dropped in an await. -/
  | cancel (f : ℕ)

/-- A `MetadataShare`, with the fetches over it. -/
structure Share where
  limit : ℕ
  assemblies : List Assembly
  current : Option ℕ
  live : List ℕ
  used : ℕ
  fetches : List Fetch

namespace Share

def new (limit : ℕ) : Share := ⟨limit, [], none, [], 0, []⟩

/-- A fetch holds the assembly. -/
def holds (x : Fetch) (a : ℕ) : Bool :=
  match x.place with
  | .ended => false
  | place => x.assembly = a || place.victim = some a

/-- `Arc::strong_count` is above zero. -/
def alive (s : Share) (a : ℕ) : Bool := s.current = some a || s.fetches.any fun x => holds x a

/-- The assemblies that nothing holds are dropped. -/
def sweep (s : Share) : Share :=
  { s with
    used := s.used - (s.assemblies.mapIdx fun i a => if s.alive i then 0 else a.held).sum
    assemblies := s.assemblies.mapIdx fun i a => if s.alive i then a else a.reset }

/-- `private_assembly`, with the number of the new assembly. -/
def privateAssembly (s : Share) (size : ℕ) : Share × ℕ :=
  let a := s.assemblies.length
  ({ s with assemblies := s.assemblies ++ [Assembly.new size], live := s.live.filter s.alive ++ [a] }, a)

/-- The rest of `attach`. -/
def attach (s : Share) (size : ℕ) : Share × ℕ :=
  match s.current with
  | some a => if (s.assemblies[a]?.any fun x => x.size = size) then (s, a) else s.privateAssembly size
  | none =>
    let (s, a) := s.privateAssembly size
    ({ s with current := some a }, a)

/-- A fetch, and the assembly it works on, after an operation. -/
def put (s : Share) (f : ℕ) (x : Fetch) (a : Assembly) : Share :=
  { s with assemblies := s.assemblies.set x.assembly a, fetches := s.fetches.set f x }

/-- What a fetch does with a message. -/
def received (x : Fetch) (a : Assembly) : Message → Fetch
  | .data idx block =>
    { x with place := if idx ∈ x.mine && block.length = a.pieceLen idx then .storing idx block else .loop }
  | .reject idx =>
    if idx ∈ x.mine then { x with rejected := idx :: x.rejected, place := .releasing idx } else { x with place := .loop }
  | .request => { x with place := .rejecting }
  | .other => { x with place := .loop }
  | .gone => { x with place := .dropping true }

/-- The next operation. `verified` is what `assemble_checked` makes of the bytes. -/
def advance (verified : List UInt8 → Bool) (s : Share) (f : ℕ) (x : Fetch) (a : Assembly) : Option Share :=
  match x.place with
  | .loop => some (s.put f { x with place := if a.isComplete then .dropping false else .claiming } a)
  | .claiming =>
    let (out, a) := a.claim (peerMetadataWindow - x.mine.length) (x.mine ++ x.rejected)
    some (s.put f { x with place := .recording out } a)
  | .recording [] => some (s.put f { x with place := .judging } a)
  | .recording (idx :: pending) =>
    some (s.put f { x with mine := if idx ∈ x.mine then x.mine else idx :: x.mine, place := .requesting pending } a)
  | .judging => some (s.put f { x with place := if x.mine.isEmpty && a.missingAllIn x.rejected then .dropping true else .waiting } a)
  | .storing idx block =>
    match a.store (s.limit - s.used) idx block with
    | some (a, taken) => some ({ s with used := s.used + taken }.put f { x with place := .releasing idx } a)
    | none => some (s.put f { x with place := .scanning idx block (s.live.filter fun b => s.alive b && b ≠ x.assembly) none } a)
  | .scanning idx block (b :: todo) best =>
    let held := (s.assemblies[b]?.map Assembly.evictableBytes).getD 0
    let best := if 0 < held && (best.map Prod.fst).getD 0 ≤ held then some (held, b) else best
    some (s.put f { x with place := .scanning idx block todo best } a)
  | .scanning idx block [] (some (_, victim)) => some (s.put f { x with place := .evicting idx block victim } a)
  | .scanning _ _ [] none => some (s.put f { x with place := .dropping true } a)
  | .evicting idx block victim =>
    match s.assemblies[victim]? with
    | some v =>
      some { s with
        used := s.used - v.held
        assemblies := s.assemblies.set victim v.reset
        fetches := s.fetches.set f { x with place := .storing idx block } }
    | none => none
  | .releasing idx =>
    if idx ∈ x.mine then some (s.put f { x with mine := x.mine.erase idx, place := .loop } (a.unclaim idx))
    else some (s.put f { x with place := .loop } a)
  | .dropping ends =>
    match x.mine with
    | idx :: mine => some (s.put f { x with mine := mine } (a.unclaim idx))
    | [] => some (s.put f { x with place := if ends then .ended else .assembling } a)
  | .assembling =>
    match a.assemble with
    | none => some (s.put f { x with place := .loop } a)
    | some bytes =>
      let place := if bytes.length = a.size && verified bytes then .layers else if x.isPrivate then .ended else .resetting
      some (s.put f { x with place := place } a)
  | .resetting => some ({ s with used := s.used - a.held }.put f { x with place := .replacing } a.reset)
  | .replacing =>
    let (s, b) := s.privateAssembly x.totalSize
    some { s with fetches := s.fetches.set f { x with assembly := b, isPrivate := true, place := .loop } }
  | .layers => some (s.put f { x with place := .ended } a)
  | .requesting _ | .waiting | .rejecting | .ended => none

/-- A send of a fetch returns. When it has failed, the fetch ends. -/
def afterSend (x : Fetch) (ok : Bool) : Option Fetch :=
  match x.place with
  | .requesting pending => some { x with place := if ok then .recording pending else .dropping true }
  | .rejecting => some { x with place := if ok then .loop else .dropping true }
  | _ => none

/-- A fetch is dropped in an await. -/
def cancelled (x : Fetch) : Option Fetch :=
  match x.place with
  | .requesting _ | .waiting | .rejecting | .layers => some { x with place := .dropping true }
  | _ => none

/-- What an action changes, before what nothing holds is dropped. -/
def perform (verified : List UInt8 → Bool) (s : Share) : Action → Option Share
  | .attach size =>
    if size = 0 || maxMetadataSize < size then none
    else
      let (s, a) := s.attach size
      some { s with fetches := s.fetches ++ [⟨size, a, false, [], [], .loop⟩] }
  | .turn f => s.fetches[f]?.bind fun x => s.assemblies[x.assembly]?.bind fun a => s.advance verified f x a
  | .sent f ok => s.fetches[f]?.bind fun x => (afterSend x ok).map fun x => { s with fetches := s.fetches.set f x }
  | .receive f message =>
    s.fetches[f]?.bind fun x => s.assemblies[x.assembly]?.bind fun a =>
      match x.place with
      | .waiting => some { s with fetches := s.fetches.set f (received x a message) }
      | _ => none
  | .cancel f => s.fetches[f]?.bind fun x => (cancelled x).map fun x => { s with fetches := s.fetches.set f x }

def step (verified : List UInt8 → Bool) (s : Share) (a : Action) : Option Share := (s.perform verified a).map sweep

/-- Whether a send fails or is dropped while more of what was claimed with it is in no guard. -/
def loses (s : Share) : Action → Bool
  | .sent f false | .cancel f => s.fetches[f]?.any fun x => !x.place.pending.isEmpty
  | _ => false

end Share

end Claims

end Risuko
