import Risuko.Id20
import Risuko.Lib.Lru

/-!
# The read cache

`ReadCache` of `read_cache.rs`, as a state machine. Many tasks use a cache at once: gets, writers that invalidate what they wrote,
and the calls that trim or clear it. A step is one lock section, or one access to what is shared outside the lock: the `active`
flag, the counter that all caches of the process share, a byte on disk. A lock section that touches the shared counter several
times, or ends with a store to the flag, is cut there: `holder` says how far the task that holds the lock is.

Each byte on disk carries a ghost version, the number of writes to its position so far. `floor` is a ghost too: for each position
the version of the last write there whose invalidation took effect. A get remembers the floors it began with.
-/

namespace Risuko

/-- The largest value of a 64-bit offset. -/
def maxOffset : Nat := 2 ^ 64 - 1

/-- Thirty seconds, in nanoseconds. -/
def maxIdle : Nat := 30 * 10 ^ 9

/-- A byte, and the number of writes to its position before and with it. -/
structure Byte where
  value : UInt8
  version : Nat
deriving DecidableEq

structure Entry where
  data : List Byte
  used : Nat
  last : Nat
deriving DecidableEq

/-- A load that others wait for; the waiters are gets. -/
structure Inflight where
  id : Nat
  len : Nat
  waiters : List Nat
deriving DecidableEq

/-- What the lock protects. `underflow` is a ghost: whether a subtraction from `bytes` went below zero. -/
structure Inner where
  generation : Nat
  tick : Nat
  nextId : Nat
  bytes : Nat
  entries : OrdMap Nat Entry
  lru : OrdMap Nat Nat
  inflight : OrdMap Nat Inflight
  underflow : Bool

/-- The counter that all caches share, and a ghost: whether a subtraction from it went below zero. -/
structure Shared where
  total : Nat
  underflow : Bool

/-- A subtraction from the shared counter. -/
def Shared.fetchSub (shared : Shared) (len : Nat) : Shared :=
  { total := shared.total - len, underflow := shared.underflow || decide (shared.total < len) }

/-- `release`. -/
def Shared.release (shared : Shared) (len : Nat) : Shared := if 0 < len then shared.fetchSub len else shared

/-! ## Gets and writes -/

/-- How far a get is. A leader's lock section ends before it loads; a load reads the bytes of the extent one by one. -/
inductive GetPhase where
  | registering (id generation : Nat)
  | loading (id generation : Nat) (read : List (Option Byte))
  | waiting
  | closing (id : Nat) (data : List Byte)
  | failing (id : Nat)
  | done (result : Option (List Byte))
deriving DecidableEq

/-- A get: the extent, the block asked for, the floors when it began, and how far it is. -/
structure Get where
  start : Nat
  len : Nat
  blockOff : Nat
  blockLen : Nat
  since : Nat → Nat
  phase : GetPhase

/-- The block of the data of the extent. -/
def Get.slice (get : Get) (data : List Byte) : List Byte := (data.drop (get.blockOff - get.start)).take get.blockLen

/-- A write: its range, the versions it gave to the bytes it wrote so far, and whether `invalidate_range` saw the flag set. -/
structure Write where
  offset : Nat
  len : Nat
  stamps : Nat → Option Nat
  checked : Bool

/-- The data of a load, on its way into the entries. -/
structure Completion where
  start : Nat
  len : Nat
  data : List Byte

/-- What the task that holds the lock does next: `refresh` stores the flag and gives the lock up (the leader may then load), the
others are the parts of a completed load between its accesses to the shared counter. -/
inductive LockSection where
  | refresh (leader : Option Nat)
  | fits (c : Completion)
  | evict (c : Completion)
  | pop (c : Completion)
  | reserve (c : Completion)
  | undo (c : Completion)

structure ReadCache where
  capacity : Nat
  inner : Inner
  active : Bool
  holder : Option LockSection
  gets : OrdMap Nat Get
  writes : OrdMap Nat Write
  disk : Nat → Byte
  floor : Nat → Nat

/-! ## The protected state -/

namespace Inner

def default : Inner :=
  { generation := 0, tick := 0, nextId := 0, bytes := 0, entries := OrdMap.empty, lru := OrdMap.empty, inflight := OrdMap.empty,
    underflow := false }

/-- A subtraction from `bytes`. -/
def freeBytes (inner : Inner) (len : Nat) : Inner :=
  { inner with bytes := inner.bytes - len, underflow := inner.underflow || decide (inner.bytes < len) }

/-- Take an entry out. -/
def removeEntry (inner : Inner) (start : Nat) (e : Entry) : Inner :=
  { inner with entries := inner.entries.erase start }.freeBytes e.data.length

/-- Mark an entry as used last. -/
def touch (inner : Inner) (start : Nat) (e : Entry) (now : Nat) : Inner :=
  { inner with
    entries := inner.entries.insert start { e with used := inner.tick, last := now }
    lru := (inner.lru.erase e.used).insert inner.tick start }

/-- The loop of `invalidate_range` and `trim_idle` over the entries: those that fail the test go, with their bytes. -/
def retain (inner : Inner) (keep : Nat → Entry → Bool) : Inner × Nat :=
  let gone := inner.entries.filter (fun start e => !keep start e)
  let freed := gone.sumOf (fun _ e => e.data.length)
  ({ inner with
    entries := inner.entries.filter keep
    lru := (gone.entries.map (fun e : Nat × Entry => e.2.used)).foldl OrdMap.erase inner.lru }.freeBytes freed, freed)

/-- The value `refresh_active` stores. -/
def inUse (inner : Inner) : Bool := !inner.entries.isEmpty || !inner.inflight.isEmpty

/-- The load of an extent is still the one with this id. -/
def ours (inner : Inner) (start id : Nat) : Bool := (inner.inflight.get? start).elim false (fun f => f.id == id)

end Inner

/-- Whether an extent overlaps the range from `offset` to `stop`. -/
def overlaps (offset stop start n : Nat) : Bool := decide (start < stop) && decide (offset < start + n)

/-- The floors after an invalidation: at least the versions the write gave out. -/
def Write.raise (w : Write) (floor : Nat → Nat) (p : Nat) : Nat :=
  if w.offset ≤ p ∧ p < w.offset + w.len then max (floor p) ((w.stamps (p - w.offset)).getD 0) else floor p

namespace ReadCache

/-- `with_limits`, over a disk. -/
def new (capacity : Nat) (disk : Nat → UInt8) : ReadCache :=
  { capacity := capacity
    inner := Inner.default
    active := false
    holder := none
    gets := OrdMap.empty
    writes := OrdMap.empty
    disk := fun p => { value := disk p, version := 0 }
    floor := fun _ => 0 }

/-! ## A get -/

/-- The first lock section of `get`: a hit is done, a waiter joins the load, a leader registers one. -/
def beginGet (c : ReadCache) (key start len blockOff blockLen now : Nat) : ReadCache :=
  let inner := { c.inner with tick := c.inner.tick + 1 }
  let get : Get := { start := start, len := len, blockOff := blockOff, blockLen := blockLen, since := c.floor, phase := .waiting }
  match (inner.entries.get? start).filter (fun e => e.data.length == len) with
  | some e =>
    { c with
      inner := inner.touch start e now
      gets := c.gets.insert key { get with phase := .done (some (get.slice e.data)) } }
  | none =>
    match (inner.inflight.get? start).filter (fun f => f.len == len) with
    | some f =>
      { c with
        inner := { inner with inflight := inner.inflight.insert start { f with waiters := f.waiters ++ [key] } }
        gets := c.gets.insert key get }
    | none =>
      { c with
        inner := { inner with
          nextId := inner.nextId + 1
          inflight := inner.inflight.insert start { id := inner.nextId + 1, len := len, waiters := [] } }
        gets := c.gets.insert key { get with phase := .registering (inner.nextId + 1) inner.generation }
        holder := some (.refresh (some key)) }

/-- The waiters get the data. -/
def deliver (gets : OrdMap Nat Get) (waiters : List Nat) (data : List Byte) : OrdMap Nat Get :=
  gets.mapVal (fun key get =>
    if key ∈ waiters ∧ get.phase = .waiting then { get with phase := .done (some (get.slice data)) } else get)

/-- The lock section after a load, up to the first look at the shared counter. -/
def completeLoad (c : ReadCache) (shared : Shared) (key : Nat) (get : Get) (id generation : Nat) (data : List Byte) :
    ReadCache × Shared :=
  let c := { c with gets := c.gets.insert key { get with phase := .closing id data } }
  if c.inner.ours get.start id then
    let waiters := (c.inner.inflight.get? get.start).elim [] Inflight.waiters
    let c := { c with
      inner := { c.inner with inflight := c.inner.inflight.erase get.start }
      gets := deliver c.gets waiters data }
    if c.inner.generation = generation ∧ 0 < get.len ∧ get.len ≤ c.capacity then
      let next := some (.fits { start := get.start, len := get.len, data := data })
      match c.inner.entries.get? get.start with
      | none => ({ c with holder := next }, shared)
      | some old =>
        ({ c with inner := { c.inner with lru := c.inner.lru.erase old.used }.removeEntry get.start old, holder := next },
          shared.release old.data.length)
    else ({ c with holder := some (.refresh none) }, shared)
  else ({ c with holder := some (.refresh none) }, shared)

/-- The end of the leader's lock section: it may load now. -/
def startLoad (gets : OrdMap Nat Get) (leader : Option Nat) : OrdMap Nat Get :=
  gets.mapVal (fun key get =>
    match get.phase with
    | .registering id generation =>
      if leader = some key then { get with phase := .loading id generation (List.replicate get.len none) } else get
    | _ => get)

/-- The next part of a completed load, or the end of a lock section. -/
def advance (c : ReadCache) (shared : Shared) (processCap now : Nat) : LockSection → ReadCache × Shared
  | .refresh leader => ({ c with active := c.inner.inUse, holder := none, gets := startLoad c.gets leader }, shared)
  | .fits p =>
    ({ c with holder := some (if shared.total - c.inner.bytes + p.len ≤ processCap then .evict p else .reserve p) }, shared)
  | .evict p =>
    ({ c with holder := some (if c.capacity < c.inner.bytes + p.len ∨ processCap < shared.total + p.len then .pop p else .reserve p) },
      shared)
  | .pop p =>
    match c.inner.lru.first? with
    | none => ({ c with holder := some (.reserve p) }, shared)
    | some (used, start) =>
      let inner := { c.inner with lru := c.inner.lru.erase used }
      match inner.entries.get? start with
      | none => ({ c with inner := inner, holder := some (.evict p) }, shared)
      | some e => ({ c with inner := inner.removeEntry start e, holder := some (.evict p) }, shared.release e.data.length)
  | .reserve p =>
    if c.inner.bytes + p.len ≤ c.capacity then
      let shared' := { shared with total := shared.total + p.len }
      if processCap < shared.total + p.len then ({ c with holder := some (.undo p) }, shared')
      else
        let used := c.inner.tick + 1
        ({ c with
          inner := { c.inner with
            tick := used
            lru := c.inner.lru.insert used p.start
            entries := c.inner.entries.insert p.start { data := p.data, used := used, last := now }
            bytes := c.inner.bytes + p.len }
          holder := some (.refresh none) }, shared')
    else ({ c with holder := some (.refresh none) }, shared)
  | .undo p => ({ c with holder := some (.refresh none) }, shared.fetchSub p.len)

/-- `LeaderGuard::drop`, with which a leader's get ends. -/
def dropGuard (c : ReadCache) (key : Nat) (get : Get) (id : Nat) (result : Option (List Byte)) : ReadCache :=
  { c with
    inner := if c.inner.ours get.start id then { c.inner with inflight := c.inner.inflight.erase get.start } else c.inner
    gets := c.gets.insert key { get with phase := .done result }
    holder := some (.refresh none) }

/-! ## Invalidations -/

/-- The lock section of `invalidate_range`. -/
def invalidateRange (c : ReadCache) (shared : Shared) (key : Nat) (w : Write) : ReadCache × Shared :=
  let stop := min (w.offset + w.len) maxOffset
  let before := c.inner.entries.size + c.inner.inflight.size
  let retained := c.inner.retain (fun start e => !overlaps w.offset stop start e.data.length)
  let inner := retained.1
  let inner := { inner with inflight := inner.inflight.filter (fun start f => !overlaps w.offset stop start f.len) }
  let inner := if inner.entries.size + inner.inflight.size ≠ before then { inner with generation := inner.generation + 1 } else inner
  ({ c with
    inner := inner
    writes := c.writes.erase key
    floor := w.raise c.floor
    holder := some (.refresh none) }, shared.release retained.2)

/-- The lock section of `invalidate_all`. -/
def invalidateAll (c : ReadCache) (shared : Shared) : ReadCache × Shared :=
  ({ c with
    inner := { c.inner with
      generation := c.inner.generation + 1
      entries := OrdMap.empty
      lru := OrdMap.empty
      bytes := 0
      inflight := OrdMap.empty }
    holder := some (.refresh none) }, shared.release c.inner.bytes)

/-- The lock section of `trim_idle`. -/
def trimIdle (c : ReadCache) (shared : Shared) (now : Nat) : ReadCache × Shared :=
  let retained := c.inner.retain (fun _ e => decide (now - e.last < maxIdle))
  ({ c with inner := retained.1, holder := some (.refresh none) }, shared.release retained.2)

/-- A byte of a write reaches the disk. -/
def writeByte (c : ReadCache) (key : Nat) (w : Write) (k : Nat) (value : UInt8) : ReadCache :=
  let version := (c.disk (w.offset + k)).version + 1
  { c with
    disk := Function.update c.disk (w.offset + k) { value := value, version := version }
    writes := c.writes.insert key { w with stamps := Function.update w.stamps k (some version) } }

end ReadCache

/-! ## Steps -/

/-- The steps of the tasks that use a cache. A get is named by a key, and so is a write. `advance` is the next step of the task that
holds the lock; the other steps that need the lock wait until it is free. `invalidateAll` and `trimIdle` are the calls that
saw the flag set; those that did not change nothing. -/
inductive CacheEvent where
  | beginGet (key start len blockOff blockLen now : Nat)
  | advance (now : Nat)
  | readByte (key k : Nat)
  | finishLoad (key : Nat)
  | failLoad (key : Nat)
  | dropGuard (key : Nat)
  | giveUp (key : Nat)
  | beginWrite (key offset len : Nat)
  | writeByte (key k : Nat) (value : UInt8)
  | checkActive (key : Nat)
  | invalidateRange (key : Nat)
  | invalidateAll
  | trimIdle (now : Nat)

/-- The cache and the shared counter after a step, if the step can be taken. -/
def CacheEvent.apply (processCap : Nat) (c : ReadCache) (shared : Shared) : CacheEvent → Option (ReadCache × Shared)
  | .beginGet key start len blockOff blockLen now =>
    if c.holder.isNone ∧ c.gets.get? key = none ∧ start + len ≤ maxOffset ∧ start ≤ blockOff ∧ blockOff + blockLen ≤ start + len then
      some (c.beginGet key start len blockOff blockLen now, shared)
    else none
  | .advance now => c.holder.map (c.advance shared processCap now)
  | .readByte key k =>
    match c.gets.get? key with
    | some get =>
      match get.phase with
      | .loading id generation read =>
        if read[k]? = some none then
          let read := read.set k (some (c.disk (get.start + k)))
          some ({ c with gets := c.gets.insert key { get with phase := .loading id generation read } }, shared)
        else none
      | _ => none
    | none => none
  | .finishLoad key =>
    match c.gets.get? key with
    | some get =>
      match get.phase with
      | .loading id generation read =>
        if c.holder.isNone ∧ read.all Option.isSome then some (c.completeLoad shared key get id generation read.reduceOption)
        else none
      | _ => none
    | none => none
  | .failLoad key =>
    match c.gets.get? key with
    | some get =>
      match get.phase with
      | .loading id _ _ => some ({ c with gets := c.gets.insert key { get with phase := .failing id } }, shared)
      | _ => none
    | none => none
  | .dropGuard key =>
    match c.gets.get? key with
    | some get =>
      match get.phase with
      | .closing id data => if c.holder.isNone then some (c.dropGuard key get id (some (get.slice data)), shared) else none
      | .failing id => if c.holder.isNone then some (c.dropGuard key get id none, shared) else none
      | _ => none
    | none => none
  | .giveUp key =>
    match c.gets.get? key with
    | some get =>
      match get.phase with
      | .waiting => some ({ c with gets := c.gets.insert key { get with phase := .done none } }, shared)
      | _ => none
    | none => none
  | .beginWrite key offset len =>
    if c.writes.get? key = none then
      some ({ c with writes := c.writes.insert key { offset := offset, len := len, stamps := fun _ => none, checked := false } }, shared)
    else none
  | .writeByte key k value =>
    match c.writes.get? key with
    | some w => if k < w.len ∧ w.checked = false then some (c.writeByte key w k value, shared) else none
    | none => none
  | .checkActive key =>
    match c.writes.get? key with
    | some w =>
      if c.active then some ({ c with writes := c.writes.insert key { w with checked := true } }, shared)
      else some ({ c with writes := c.writes.erase key, floor := w.raise c.floor }, shared)
    | none => none
  | .invalidateRange key =>
    match c.writes.get? key with
    | some w => if c.holder.isNone ∧ w.checked = true then some (c.invalidateRange shared key w) else none
    | none => none
  | .invalidateAll => if c.holder.isNone then some (c.invalidateAll shared) else none
  | .trimIdle now => if c.holder.isNone then some (c.trimIdle shared now) else none

/-- The caches of a process and the counter they share. -/
structure CacheSystem where
  caches : OrdMap Nat ReadCache
  shared : Shared

inductive SystemEvent where
  | create (i capacity : Nat) (disk : Nat → UInt8)
  | step (i : Nat) (event : CacheEvent)
  | drop (i : Nat)

/-- Nobody uses the cache. -/
def ReadCache.idle (c : ReadCache) : Bool :=
  c.holder.isNone && c.writes.isEmpty && c.gets.entries.all (fun e =>
    match e.2.phase with
    | .done _ => true
    | _ => false)

/-- The system after an event, if it can take place. A cache is dropped when nobody uses it, and gives its bytes back. -/
def SystemEvent.apply (processCap : Nat) (s : CacheSystem) : SystemEvent → Option CacheSystem
  | .create i capacity disk =>
    if s.caches.get? i = none then some { s with caches := s.caches.insert i (ReadCache.new capacity disk) } else none
  | .step i event =>
    match s.caches.get? i with
    | some c => (event.apply processCap c s.shared).map (fun r => { caches := s.caches.insert i r.1, shared := r.2 })
    | none => none
  | .drop i =>
    match s.caches.get? i with
    | some c =>
      if c.idle then some { caches := s.caches.erase i, shared := s.shared.release c.inner.bytes } else none
    | none => none

end Risuko

/-!
## The cache of leaf hashes

`LeafHashCache` of `torrent.rs`: block hashes by file and piece, with a queue of stamps that says what was used last.
-/

namespace Risuko

def leafHashCacheBytes : Nat := 4 * 1024 * 1024

abbrev LeafBlocks := List Id32

/-- A file and a piece. -/
abbrev LeafKey := Nat ×ₗ Nat

structure LeafHashCache where
  entries : OrdMap LeafKey (LeafBlocks × Nat)
  order : List (LeafKey × Nat)
  bytes : Nat
  clock : Nat

namespace LeafHashCache

/-- `LeafHashCache::default`. -/
def default : LeafHashCache := ⟨.empty, [], 0, 0⟩

/-- `compact`: the queue loses its old stamps when there are many. -/
def compact (c : LeafHashCache) : LeafHashCache :=
  if 2 * c.entries.size + 64 < c.order.length then { c with order := c.order.filter (current c.entries) } else c

/-- `LeafHashCache::get`. -/
def get (c : LeafHashCache) (key : LeafKey) : LeafHashCache × Option LeafBlocks :=
  match c.entries.get? key with
  | none => (c, none)
  | some (blocks, _) =>
    let clock := c.clock + 1
    (compact { c with entries := c.entries.insert key (blocks, clock), order := c.order ++ [(key, clock)], clock := clock }, some blocks)

/-- The entry of a key leaves, and its bytes with it. -/
def removeEntry (entries : OrdMap LeafKey (LeafBlocks × Nat)) (bytes : Nat) (key : LeafKey) : OrdMap LeafKey (LeafBlocks × Nat) × Nat :=
  match entries.get? key with
  | none => (entries, bytes)
  | some (old, _) => (entries.erase key, bytes - old.length * 32)

/-- The loop of `insert`: entries leave in the order of the queue until there is room, and old stamps are dropped on the way. -/
def makeRoom (size clock : Nat) : List (LeafKey × Nat) → OrdMap LeafKey (LeafBlocks × Nat) → Nat → LeafHashCache
  | [], entries, bytes => ⟨entries, [], bytes, clock⟩
  | oldest :: order, entries, bytes =>
    if leafHashCacheBytes < bytes + size then
      if current entries oldest then
        let (entries, bytes) := removeEntry entries bytes oldest.1
        makeRoom size clock order entries bytes
      else makeRoom size clock order entries bytes
    else ⟨entries, oldest :: order, bytes, clock⟩

/-- `LeafHashCache::insert`. -/
def insert (c : LeafHashCache) (key : LeafKey) (blocks : LeafBlocks) : LeafHashCache :=
  let size := blocks.length * 32
  if leafHashCacheBytes < size then c
  else
    let (entries, bytes) := removeEntry c.entries c.bytes key
    let c := makeRoom size c.clock c.order entries bytes
    let clock := c.clock + 1
    compact { entries := c.entries.insert key (blocks, clock)
              order := c.order ++ [(key, clock)]
              bytes := c.bytes + size
              clock := clock }

end LeafHashCache

/-- A call on the cache. -/
inductive LeafCall
  | get (key : LeafKey)
  | insert (key : LeafKey) (blocks : LeafBlocks)

namespace LeafHashCache

def call (c : LeafHashCache) : LeafCall → LeafHashCache
  | .get key => (c.get key).1
  | .insert key blocks => c.insert key blocks

/-- Calls on an empty cache. -/
def run (calls : List LeafCall) : LeafHashCache := calls.foldl call default

end LeafHashCache

end Risuko
