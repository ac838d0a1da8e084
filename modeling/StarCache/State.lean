import StarCache.CacheItem
import StarCache.Platform
import StarCache.LruEvictionPolicy
import StarCache.Space.DiskSpaceManager
import StarCache.Space.MemSpaceManager

/-!
# The state of a cache instance

Items, segments and disk blocks are shared objects. A `shared_ptr` is modelled by
reachability: an object lives as long as the access index, a living item or a
local variable of a running call refers to it, and `collect` runs the deleters of
the objects that have just become unreachable. `scope` is a block of the program
text whose local references end with it.

`trace` and `locks` record what the current public call did; no decision of the
program depends on them.
-/

namespace StarCache

open Prog

/-- A shared reference in a local variable. -/
inductive Local
  | item (r : ItemRef)
  | segment (g : SegmentRef)
  | memBlock (block : MemBlockItem)
  | diskBlock (id : BlockId)

/-- What a call did to the eviction policies, to the index and to the blocks. -/
inductive Event
  | memTrack (key : BlockKey)
  | diskTrack (id : CacheId)
  /-- What an eviction policy gives up. -/
  | memEvict (keys : List BlockKey)
  | diskEvict (ids : List CacheId)
  /-- An evicted id names no item of the index, and the pass ends there; `lost` are the ids
  after it that do name one. -/
  | diskMissing (id : CacheId) (lost : List CacheId)
  /-- All disk blocks of an item are given up. -/
  | diskCleared (id : CacheId) (r : ItemRef)
  /-- A memory block is given up after a failed flush. -/
  | flushFailed (key : BlockKey) (r : ItemRef) (item : CacheItem)
  /-- A block is given up without a flush. -/
  | blockDeleted (key : BlockKey) (r : ItemRef)
  | indexInsert (id : CacheId)
  | indexRemove (id : CacheId) (r : ItemRef)

inductive LockStep
  | lock (unique : Bool) (key : BlockKey)
  | unlock (unique : Bool) (key : BlockKey)
deriving DecidableEq

structure State where
  options : CacheOptions
  memSpace : MemSpaceManager
  diskSpace : DiskSpaceManager
  /-- The bytes of the block files, by directory, file and offset. -/
  files : Nat → Nat → Nat → UInt8
  /-- The checksums of the disk block items. -/
  checksums : BlockId → Nat → UInt32
  memTracker : LruEvictionPolicy BlockKey
  diskTracker : LruEvictionPolicy CacheId
  accessIndex : AList fun _ : CacheId => ItemRef
  concurrentWrites : Nat
  items : ItemRef → CacheItem
  itemCount : Nat
  segments : SegmentRef → BlockSegment
  segmentCount : Nat
  liveItems : List ItemRef
  liveSegments : List SegmentRef
  liveBlocks : List BlockId
  locals : List Local
  memHandles : List EvictionHandle
  diskHandles : List EvictionHandle
  clock : Nat
  trace : List Event
  locks : List LockStep

namespace State

/-! ## Reachability -/

def find (s : State) (id : CacheId) : Option ItemRef := s.accessIndex.lookup id

/-- `has_disk_layer`. -/
def hasDiskLayer (s : State) : Bool := 0 < s.options.diskDirSpaces.length

def itemHeld (s : State) (r : ItemRef) : Bool :=
  s.accessIndex.entries.any (·.2 == r) ||
    s.locals.any fun x => match x with
      | .item r' => r' == r
      | _ => false

def segmentHeld (s : State) (g : SegmentRef) : Bool :=
  (s.liveItems.any fun r => (s.items r).blocks.any fun b =>
    b.memBlockItem.any (·.slices.contains (some g))) ||
    s.locals.any fun x => match x with
      | .segment g' => g' == g
      | .memBlock block => block.slices.contains (some g)
      | _ => false

def blockHeld (s : State) (id : BlockId) : Bool :=
  (s.liveItems.any fun r => (s.items r).blocks.any (·.diskBlockItem == some id)) ||
    s.locals.any fun x => match x with
      | .diskBlock id' => id' == id
      | _ => false

end State

variable (pf : Platform)

/-- What `new_cache_item` charges. -/
def itemCharge (cacheKey : CacheKey) (size : Nat) : Nat :=
  pf.sizeofCacheItem + cacheKey.length + pf.sizeofBlockItem * blockCountOf pf.flags size

/-- What `new_block_segment` charges. -/
def segmentCharge (buf : IOBuf) : Nat := pf.sizeofBlockSegment + buf.length

namespace State

def itemsCharge (s : State) (refs : List ItemRef) : List Nat :=
  refs.map fun r => itemCharge pf (s.items r).cacheKey (s.items r).size

def segmentsCharge (s : State) (refs : List SegmentRef) : List Nat :=
  refs.map fun g => segmentCharge pf (s.segments g).buf

end State

/-! ## Deleters -/

def freeItems : Prog State Unit := modify fun s =>
  let dead := s.liveItems.filter fun r => !s.itemHeld r
  { s with
    liveItems := s.liveItems.filter s.itemHeld
    memSpace := (s.itemsCharge pf dead).foldl MemSpaceManager.decMem s.memSpace }

def freeSegments : Prog State Unit := modify fun s =>
  let dead := s.liveSegments.filter fun g => !s.segmentHeld g
  { s with
    liveSegments := s.liveSegments.filter s.segmentHeld
    memSpace := (s.segmentsCharge pf dead).foldl MemSpaceManager.decMem s.memSpace }

def onDisk {α : Type} (m : Prog DiskSpaceManager α) : Prog State α :=
  zoom (·.diskSpace) (fun s diskSpace => { s with diskSpace }) m

def freeBlocks : Prog State Unit := do
  let s ← read
  forEach (s.liveBlocks.filter fun id => !s.blockHeld id)
    fun id => onDisk (DiskSpaceManager.freeBlock pf.flags id)
  modify fun s => { s with liveBlocks := s.liveBlocks.filter s.blockHeld }

/-- Run the deleters of all objects that nothing refers to. An item goes before
what only it refers to. -/
def collect : Prog State Unit := do
  freeItems pf
  freeSegments pf
  freeBlocks pf

/-- Keep a reference until the end of the enclosing scope. -/
def hold (x : Local) : Prog State Unit := modify fun s => { s with locals := x :: s.locals }

def scope {α : Type} (body : Prog State α) : Prog State α := do
  let outer ← read
  let a ← body
  modify fun s => { s with locals := outer.locals }
  collect pf
  pure a

/-! ## Single steps -/

def tick : Prog State Nat := modifyGet fun s => (s.clock, { s with clock := s.clock + 1 })

def emit (e : Event) : Prog State Unit := modify fun s => { s with trace := s.trace ++ [e] }

def lock (unique : Bool) (key : BlockKey) : Prog State Unit :=
  modify fun s => { s with locks := s.locks ++ [.lock unique key] }

def unlock (unique : Bool) (key : BlockKey) : Prog State Unit :=
  modify fun s => { s with locks := s.locks ++ [.unlock unique key] }

def updateItem (r : ItemRef) (f : CacheItem → CacheItem) : Prog State Unit :=
  modify fun s => { s with items := Function.update s.items r (f (s.items r)) }

/-- `cache_item->blocks[i]`. -/
def getBlock (r : ItemRef) (i : Nat) : Prog State BlockItem := do
  let s ← read
  deref (s.items r).blocks[i]?

def setMemBlock (r : ItemRef) (i : Nat) (block : Option MemBlockItem) : Prog State Unit := do
  updateItem r (·.updateBlock i fun b => { b with memBlockItem := block })
  collect pf

def setDiskBlock (r : ItemRef) (i : Nat) (id : BlockId) : Prog State Unit := do
  updateItem r (·.updateBlock i fun b => { b with diskBlockItem := some id })
  collect pf

def clearBlock (r : ItemRef) (i : Nat) : Prog State Unit := do
  updateItem r (·.updateBlock i fun _ => {})
  collect pf

def clearDiskBlocks (r : ItemRef) : Prog State Unit := do
  updateItem r (·.clearDiskBlocks)
  collect pf

def releaseIfEmpty (r : ItemRef) : Prog State Bool := do
  let s ← read
  let result := (s.items r).releaseIfEmpty
  updateItem r fun _ => result.2
  pure result.1

def setPinned (r : ItemRef) (pinned : Bool) : Prog State Bool := do
  let s ← read
  let result := (s.items r).setPinned pinned
  updateItem r fun _ => result.2
  pure result.1

def setReleased (r : ItemRef) (released : Bool) : Prog State Bool := do
  let s ← read
  let result := (s.items r).setReleased released
  updateItem r fun _ => result.2
  pure result.1

def indexInsert (id : CacheId) (r : ItemRef) : Prog State Unit := do
  modify fun s => { s with accessIndex := s.accessIndex.insert id r }
  emit (.indexInsert id)
  collect pf

def indexRemove (id : CacheId) (r : ItemRef) : Prog State Unit := do
  modify fun s => { s with accessIndex := s.accessIndex.erase id }
  emit (.indexRemove id r)
  collect pf

end StarCache
