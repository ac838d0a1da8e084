import StarCache.Content.Transfer
import StarCache.Foundation.Transition
import StarCache.Ownership
import Mathlib.Data.Set.Insert

/-!
# The cache as a transition system

A step is one change of the shared state that some operation makes; its premises
are what the operation has made sure of before. The operations are shown to be
runs of this system, and what holds of a cache is shown of the steps.

Three obligations may be open between steps: block keys and cache ids that an
operation has still to track, and items that it has emptied and has still to
release. A `Ghost` is the sets of those that are open.
-/

namespace StarCache

open Prog MachineInt

/-! ## What is expected of a state -/

/-- The bytes of block `i` of an object. -/
def blockPart (flags : Flags) (value : IOBuf) (i : Nat) : IOBuf :=
  (value.drop (i * flags.blockSize)).take flags.blockSize

/-- A flush fails for the block of this key, and no other block of the item holds
anything. -/
def Drained (key : BlockKey) (item : CacheItem) : Prop :=
  (item.updateBlock key.blockIndex fun b => { b with memBlockItem := none }).blocks.all
    (·.isEmpty) = true

instance (key : BlockKey) (item : CacheItem) : Decidable (Drained key item) :=
  inferInstanceAs (Decidable (_ = true))

namespace Event

/-- The item loses data. -/
def Harms (r : ItemRef) : Event → Prop
  | .diskCleared _ r' | .flushFailed _ r' _ | .blockDeleted _ r' => r' = r
  | _ => False

instance (r : ItemRef) : DecidablePred (Harms r) := fun e => by
  unfold Harms
  split <;> infer_instance

/-- Events about which nothing is to be said. The others come with the step they
tell of. -/
def Plain : Event → Prop
  | .diskMissing _ _ | .flushFailed _ _ _ | .indexInsert _ | .indexRemove _ _ => True
  | _ => False

end Event

namespace State

variable (pf : Platform) (s : State)

/-- Something of the item has been lost in this call. -/
def Harmed (r : ItemRef) : Prop := ∃ e ∈ s.trace, e.Harms r

instance (r : ItemRef) : Decidable (s.Harmed r) := inferInstanceAs (Decidable (∃ e ∈ _, _))

/-- Block `i` is in memory only, and by the test of the flush not as a whole. -/
def Partial (r : ItemRef) (i : Nat) : Prop :=
  ∃ b block, s.HasBlock r i b ∧ b.memBlockItem = some block ∧ b.diskBlockItem = none ∧
    StarCacheImpl.continuousSegmentsSize (block.listSegments.map s.segments) 0 ≠
      (s.items r).blockSize pf.flags i

/-- The id under which an item is or would be indexed. -/
def idOf (r : ItemRef) : CacheId := pf.cachekey2id (s.items r).cacheKey

def MemTracked (key : BlockKey) : Prop := s.memTracker.Tracked pf.blockKeyHash key

def DiskTracked (id : CacheId) : Prop := s.diskTracker.Tracked pf.cacheIdHash id

instance (key : BlockKey) : Decidable (s.MemTracked pf key) :=
  inferInstanceAs (Decidable (s.memTracker.Tracked pf.blockKeyHash key))

instance (id : CacheId) : Decidable (s.DiskTracked pf id) :=
  inferInstanceAs (Decidable (s.diskTracker.Tracked pf.cacheIdHash id))

/-- Tracked, but not to be evicted now. -/
def MemBusy (key : BlockKey) : Prop :=
  s.MemTracked pf key ∧ ¬ s.memTracker.Idle pf.blockKeyHash key

def DiskBusy (id : CacheId) : Prop :=
  s.DiskTracked pf id ∧ ¬ s.diskTracker.Idle pf.cacheIdHash id

def Indexed (r : ItemRef) : Prop := ∃ id, s.find id = some r

/-- A pinned item of a cache without disks: nothing can be done with its blocks. -/
def Locked (r : ItemRef) : Prop := (s.items r).pinned = true ∧ s.hasDiskLayer = false

/-- The memory blocks of indexed items are tracked. -/
def MemEvictable (owed : Set BlockKey) : Prop :=
  ∀ id r i b, s.find id = some r → s.HasBlock r i b → b.memBlockItem ≠ none → ¬ s.Locked r →
    s.MemTracked pf ⟨id, i⟩ ∨ ⟨id, i⟩ ∈ owed

/-- Unpinned items of the index with disk blocks are tracked, unless a pass that
ended early has lost them. -/
def DiskEvictable (owed : Set CacheId) : Prop :=
  ∀ id r i b, s.find id = some r → s.HasBlock r i b → b.diskBlockItem ≠ none →
    (s.items r).pinned = false →
      s.DiskTracked pf id ∨ id ∈ owed ∨ ∃ id' lost, .diskMissing id' lost ∈ s.trace ∧ id ∈ lost

/-- Items of the index hold something, unless a failed flush has emptied them. -/
def NonEmpty (hollow : Set ItemRef) : Prop :=
  ∀ id r, s.find id = some r → (∃ i b, s.HasBlock r i b ∧ b.isEmpty = false) ∨ r ∈ hollow ∨
    ∃ key item, .flushFailed key r item ∈ s.trace ∧ Drained key item

/-- The items, segments and blocks that a reference needs are alive. -/
def Alive : Local → Prop
  | .item r => r ∈ s.liveItems
  | .segment g => g ∈ s.liveSegments
  | .memBlock block => ∀ g, some g ∈ block.slices → g ∈ s.liveSegments
  | .diskBlock id => id ∈ s.liveBlocks

/-- Replace an item. -/
def withItem (r : ItemRef) (item : CacheItem) : State :=
  { s with items := Function.update s.items r item }

/-- No item but `r` at `i` owns the disk block. -/
def OwnerAt (id : BlockId) (r : ItemRef) (i : Nat) : Prop :=
  ∀ r' i' b, r' ∈ s.liveItems → s.HasBlock r' i' b → b.diskBlockItem = some id → r' = r ∧ i' = i

end State

/-- A platform with assumptions about it, and the objects the items stand for. -/
structure Scenario (pf : Platform) where
  /-- Assumptions under which bytes survive. -/
  D : Prop
  /-- Assumptions under which moreover nothing is undefined. -/
  T : Prop
  /-- Reads are considered from this clock on. -/
  start : Nat
  data : D → DataHyp pf
  total : T → D
  val : ItemRef → IOBuf
  /-- Slices of blocks over which no segment ends. -/
  whole : ItemRef → Nat → Nat → Prop

/-- A block in memory that holds what its segments stand for. One that is dirty has been put there
as a whole. -/
structure MemOk (flags : Flags) (bytes : IOBuf) (W : Nat → Prop)
    (segments : SegmentRef → BlockSegment) (block : MemBlockItem) : Prop where
  slices : SlicesOk flags bytes (fun k => W k ∨ block.state = .dirty) segments block.slices
  dirty : block.state = .dirty → ∀ k, k * flags.sliceSize < bytes.length → Resident block.slices k

theorem SlicesOk.memOk {flags : Flags} {bytes : IOBuf} {W : Nat → Prop}
    {segments : SegmentRef → BlockSegment} {block : MemBlockItem}
    (h : SlicesOk flags bytes W segments block.slices) (hstate : block.state ≠ .dirty) :
    MemOk flags bytes W segments block :=
  ⟨h.mono fun _ _ _ hW => Or.inl (hW.resolve_right hstate), fun hdirty => absurd hdirty hstate⟩

/-- The blocks of an item hold parts of its object. -/
structure ItemOk (pf : Platform) (W : Nat → Nat → Prop) (value : IOBuf) (s : State) (r : ItemRef) :
    Prop where
  size : (s.items r).size = value.length
  pos : 0 < value.length
  le : blockCountOf pf.flags value.length < 4294967296
  mem : ∀ i b block, s.HasBlock r i b → b.memBlockItem = some block →
    MemOk pf.flags (blockPart pf.flags value i) (W i) s.segments block
  disk : ∀ i b id, s.HasBlock r i b → b.diskBlockItem = some id →
    BlockOnDisk pf s (blockPart pf.flags value i) id

/-! ## Steps -/

structure Ghost where
  memOwed : Set BlockKey
  diskOwed : Set CacheId
  hollow : Set ItemRef

structure World where
  state : State
  ghost : Ghost

/-- What a step may touch, as far as it matters to a caller. -/
inductive Action
  | other
  /-- Take or give back a handle. -/
  | touchMem
  | touchDisk
  /-- Track a cache id or one of its block keys. -/
  | track (id : CacheId)
  | untrack (id : CacheId)
  /-- Change the blocks of an item, but for putting slices into memory. -/
  | change (r : ItemRef)
  /-- Put slices of a block of an item into memory. -/
  | fill (r : ItemRef)
  | create
  /-- Pin or unpin an item; a pinned item may be untracked. -/
  | pin (r : ItemRef)
  /-- Unlink an item that may hold something. -/
  | remove (id : CacheId)
  | publish (id : CacheId)

section Step

variable {pf : Platform} (sc : Scenario pf)

inductive Step : Action → World → World → Prop
  | idle {s : State} {g : Ghost} (clock : Nat) (locks : List LockStep) (concurrentWrites : Nat)
      (memSpace : MemSpaceManager) (diskSpace : DiskSpaceManager) (clock_le : s.clock ≤ clock)
      (mem_inv : ∀ total, s.memSpace.Accounts total → memSpace.Accounts total)
      (disk_inv : ∀ ids, s.diskSpace.Inv pf.flags ids → diskSpace.Inv pf.flags ids)
      (layout : DiskSpaceManager.SameLayout s.diskSpace diskSpace)
      (quota : memSpace.quotaBytes = s.memSpace.quotaBytes) :
      Step .other ⟨s, g⟩ ⟨{ s with clock, locks, concurrentWrites, memSpace, diskSpace }, g⟩
  | emit {s : State} {g : Ghost} (e : Event) (plain : e.Plain) :
      Step .other ⟨s, g⟩ ⟨{ s with trace := s.trace ++ [e] }, g⟩
  | clearing {s : State} {g : Ghost} (id : CacheId) (r : ItemRef) (ids : List CacheId)
      (found : s.find id = some r) (evicted : .diskEvict ids ∈ s.trace) (mem : id ∈ ids) :
      Step .other ⟨s, g⟩ ⟨{ s with trace := s.trace ++ [.diskCleared id r] }, g⟩
  | deleting {s : State} {g : Ghost} (key : BlockKey) (r : ItemRef)
      (cause : (s.items r).pinned = true → s.Partial pf r key.blockIndex) :
      Step .other ⟨s, g⟩ ⟨{ s with trace := s.trace ++ [.blockDeleted key r] }, g⟩
  -- objects
  | newItem {s : State} {g : Ghost} (cacheKey : CacheKey) (size expireTime : Nat)
      (memSpace : MemSpaceManager)
      (mem_inv : ∀ total, s.memSpace.Accounts total →
        memSpace.Accounts (total + itemCharge pf cacheKey size))
      (value : sc.D → size = (sc.val s.itemCount).length ∧ 0 < size ∧
        blockCountOf pf.flags size < 4294967296)
      (quota : memSpace.quotaBytes = s.memSpace.quotaBytes) :
      Step .create ⟨s, g⟩ ⟨{ s with
        memSpace
        items := Function.update s.items s.itemCount (.new pf.flags cacheKey size expireTime)
        itemCount := s.itemCount + 1
        liveItems := s.itemCount :: s.liveItems }, g⟩
  | newSegment {s : State} {g : Ghost} (seg : BlockSegment) (memSpace : MemSpaceManager)
      (mem_inv : ∀ total, s.memSpace.Accounts total →
        memSpace.Accounts (total + segmentCharge pf seg.buf))
      (quota : memSpace.quotaBytes = s.memSpace.quotaBytes) :
      Step .other ⟨s, g⟩ ⟨{ s with
        memSpace
        segments := Function.update s.segments s.segmentCount seg
        segmentCount := s.segmentCount + 1
        liveSegments := s.segmentCount :: s.liveSegments }, g⟩
  | newBlock {s : State} {g : Ghost} (id : BlockId) (sums : Nat → UInt32) (clock : Nat)
      (diskSpace : DiskSpaceManager) (clock_le : s.clock ≤ clock)
      (disk_inv : ∀ ids, s.diskSpace.Inv pf.flags ids → diskSpace.Inv pf.flags (id :: ids))
      (layout : DiskSpaceManager.SameLayout s.diskSpace diskSpace) :
      Step .other ⟨s, g⟩ ⟨{ s with
        clock
        diskSpace
        liveBlocks := id :: s.liveBlocks
        checksums := Function.update s.checksums id sums }, g⟩
  | hold {s : State} {g : Ghost} (x : Local) (alive : s.Alive x) :
      Step .other ⟨s, g⟩ ⟨{ s with locals := x :: s.locals }, g⟩
  | leave {s : State} {g : Ghost} (locals : List Local) (sub : ∀ x ∈ locals, x ∈ s.locals) :
      Step .other ⟨s, g⟩ ⟨{ s with locals }, g⟩
  | collect {s t : State} {g : Ghost} (effect : Collects s t) (wf : WF pf t) :
      Step .other ⟨s, g⟩ ⟨t, g⟩
  -- eviction policies
  | touchMem {s : State} {g : Ghost} (memTracker : LruEvictionPolicy BlockKey)
      (memHandles : List EvictionHandle) (inv : memTracker.Inv pf.blockKeyHash memHandles)
      (tracked : ∀ key, memTracker.Tracked pf.blockKeyHash key ↔ s.MemTracked pf key) :
      Step .touchMem ⟨s, g⟩ ⟨{ s with memTracker, memHandles }, g⟩
  | memTrack {s : State} {g : Ghost} (key : BlockKey) (size : Nat)
      (free : ¬ s.MemBusy pf key ∨ s.find key.cacheId = none) :
      Step (.track key.cacheId) ⟨s, g⟩ ⟨{ s with
        memTracker := s.memTracker.add pf.blockKeyHash key size
        trace := s.trace ++ [.memTrack key] }, g⟩
  | memUntrack {s : State} {g : Ghost} (key : BlockKey) (gone : s.find key.cacheId = none) :
      Step (.untrack key.cacheId) ⟨s, g⟩
        ⟨{ s with memTracker := s.memTracker.remove pf.blockKeyHash key }, g⟩
  | memEvict {s : State} {g : Ghost} (keys : List BlockKey)
      (memTracker : LruEvictionPolicy BlockKey)
      (inv : memTracker.Inv pf.blockKeyHash s.memHandles)
      (idle : ∀ key ∈ keys, s.memTracker.Idle pf.blockKeyHash key)
      (tracked : ∀ key, memTracker.Tracked pf.blockKeyHash key ↔
        s.MemTracked pf key ∧ key ∉ keys)
      (idle_iff : ∀ key, memTracker.Idle pf.blockKeyHash key ↔
        s.memTracker.Idle pf.blockKeyHash key ∧ key ∉ keys) :
      Step .other ⟨s, g⟩ ⟨{ s with memTracker, trace := s.trace ++ [.memEvict keys] },
        { g with memOwed := {key | key ∈ keys} ∪ g.memOwed }⟩
  | touchDisk {s : State} {g : Ghost} (diskTracker : LruEvictionPolicy CacheId)
      (diskHandles : List EvictionHandle) (inv : diskTracker.Inv pf.cacheIdHash diskHandles)
      (tracked : ∀ id, diskTracker.Tracked pf.cacheIdHash id ↔ s.DiskTracked pf id) :
      Step .touchDisk ⟨s, g⟩ ⟨{ s with diskTracker, diskHandles }, g⟩
  | diskTrack {s : State} {g : Ghost} (id : CacheId) (size : Nat)
      (free : ¬ s.DiskBusy pf id ∨ s.find id = none)
      (unpinned : ∀ r, s.find id = some r → (s.items r).pinned = false) :
      Step (.track id) ⟨s, g⟩ ⟨{ s with
        diskTracker := s.diskTracker.add pf.cacheIdHash id size
        trace := s.trace ++ [.diskTrack id] }, g⟩
  | diskUntrack {s : State} {g : Ghost} (id : CacheId) (gone : s.find id = none) :
      Step (.untrack id) ⟨s, g⟩
        ⟨{ s with diskTracker := s.diskTracker.remove pf.cacheIdHash id }, g⟩
  | diskEvict {s : State} {g : Ghost} (ids : List CacheId)
      (diskTracker : LruEvictionPolicy CacheId)
      (inv : diskTracker.Inv pf.cacheIdHash s.diskHandles)
      (idle : ∀ id ∈ ids, s.diskTracker.Idle pf.cacheIdHash id)
      (tracked : ∀ id, diskTracker.Tracked pf.cacheIdHash id ↔ s.DiskTracked pf id ∧ id ∉ ids)
      (idle_iff : ∀ id, diskTracker.Idle pf.cacheIdHash id ↔
        s.diskTracker.Idle pf.cacheIdHash id ∧ id ∉ ids) :
      Step .other ⟨s, g⟩ ⟨{ s with diskTracker, trace := s.trace ++ [.diskEvict ids] },
        { g with diskOwed := {id | id ∈ ids} ∪ g.diskOwed }⟩
  -- blocks
  | attachMem {s : State} {g : Ghost} (r : ItemRef) (i : Nat) (block : MemBlockItem)
      (alive : s.Alive (.memBlock block))
      (content : sc.D →
        MemOk pf.flags (blockPart pf.flags (sc.val r) i) (sc.whole r i) s.segments block)
      (indexed : s.Indexed r → s.hasDiskLayer = true ∧
        ((∃ b, s.HasBlock r i b ∧ b.diskBlockItem ≠ none) ∨ s.Harmed r))
      (grows : sc.D → ∀ b old, s.HasBlock r i b → b.memBlockItem = some old →
        ∀ k, Resident old.slices k → Resident block.slices k) :
      Step (.fill r) ⟨s, g⟩ ⟨s.withItem r ((s.items r).updateBlock i fun b =>
          { b with memBlockItem := some block }),
        { g with memOwed := insert ⟨s.idOf pf r, i⟩ g.memOwed }⟩
  | dropMem {s : State} {g : Ghost} (r : ItemRef) (i : Nat)
      (indexed : s.Indexed r → s.hasDiskLayer = true ∧
        ((∃ b, s.HasBlock r i b ∧ b.diskBlockItem ≠ none) ∨
          ∃ key, key.blockIndex = i ∧ .flushFailed key r (s.items r) ∈ s.trace)) :
      Step (.change r) ⟨s, g⟩ ⟨s.withItem r ((s.items r).updateBlock i fun b =>
          { b with memBlockItem := none }), { g with hollow := insert r g.hollow }⟩
  | attachDisk {s : State} {g : Ghost} (r : ItemRef) (i : Nat) (id : BlockId)
      (alive : id ∈ s.liveBlocks) (owner : s.OwnerAt id r i)
      (content : sc.D → BlockOnDisk pf s (blockPart pf.flags (sc.val r) i) id) :
      Step (.change r) ⟨s, g⟩ ⟨s.withItem r ((s.items r).updateBlock i fun b =>
          { b with diskBlockItem := some id }),
        { g with diskOwed := insert (s.idOf pf r) g.diskOwed }⟩
  | clearBlock {s : State} {g : Ghost} (r : ItemRef) (i : Nat)
      (indexed : s.Indexed r → (∃ key, .blockDeleted key r ∈ s.trace) ∧ ¬ s.Locked r) :
      Step (.change r) ⟨s, g⟩ ⟨s.withItem r ((s.items r).updateBlock i fun _ => {}),
        { g with hollow := insert r g.hollow }⟩
  | clearDisk {s : State} {g : Ghost} (r : ItemRef)
      (indexed : s.Indexed r → ∃ id, .diskCleared id r ∈ s.trace) :
      Step (.change r) ⟨s, g⟩ ⟨s.withItem r (s.items r).clearDiskBlocks,
        { g with hollow := insert r g.hollow }⟩
  | setPinned {s : State} {g : Ghost} (r : ItemRef) (pinned : Bool) :
      Step (.pin r) ⟨s, g⟩ ⟨s.withItem r { s.items r with pinned },
        { g with
          memOwed := {key | key.cacheId = s.idOf pf r} ∪ g.memOwed
          diskOwed := insert (s.idOf pf r) g.diskOwed }⟩
  | pinMem {s : State} {g : Ghost} (key : BlockKey) (r : ItemRef)
      (found : s.find key.cacheId = some r) (locked : s.Locked r) :
      Step (.pin r) ⟨s, g⟩ ⟨{ s with memTracker := s.memTracker.remove pf.blockKeyHash key }, g⟩
  | pinDisk {s : State} {g : Ghost} (id : CacheId) (r : ItemRef) (found : s.find id = some r)
      (pinned : (s.items r).pinned = true) :
      Step (.pin r) ⟨s, g⟩ ⟨{ s with diskTracker := s.diskTracker.remove pf.cacheIdHash id }, g⟩
  -- the index
  | expire {s : State} {g : Ghost} (id : CacheId) (r : ItemRef) (released : Bool)
      (found : s.find id = some r) (empty : (s.items r).blocks.all (·.isEmpty) = true) :
      Step .other ⟨s, g⟩ ⟨{ s.withItem r { s.items r with released } with
        accessIndex := s.accessIndex.erase id }, g⟩
  | remove {s : State} {g : Ghost} (id : CacheId) (r : ItemRef) (released : Bool)
      (found : s.find id = some r) :
      Step (.remove id) ⟨s, g⟩ ⟨{ s.withItem r { s.items r with released } with
        accessIndex := s.accessIndex.erase id }, g⟩
  | publish {s : State} {g : Ghost} (id : CacheId) (r : ItemRef) (live : r ∈ s.liveItems)
      (home : s.idOf pf r = id) (active : (s.items r).released = false) :
      Step (.publish id) ⟨s, g⟩ ⟨{ s with accessIndex := s.accessIndex.insert id r },
        { memOwed := {key | key.cacheId = id} ∪ g.memOwed
          diskOwed := insert id g.diskOwed
          hollow := insert r g.hollow }⟩
  -- files
  | write {s : State} {g : Ghost} (clock : Nat) (files : Nat → Nat → Nat → UInt8)
      (checksums : BlockId → Nat → UInt32) (clock_le : s.clock ≤ clock)
      (kept : sc.D → ∀ r ∈ s.liveItems, ∀ i b id, s.HasBlock r i b → b.diskBlockItem = some id →
        BlockOnDisk pf s (blockPart pf.flags (sc.val r) i) id →
          BlockOnDisk pf { s with clock, files, checksums } (blockPart pf.flags (sc.val r) i) id) :
      Step .other ⟨s, g⟩ ⟨{ s with clock, files, checksums }, g⟩
  /-- An obligation is met. -/
  | settle {s : State} {g : Ghost} (g' : Ghost) (mem : s.MemEvictable pf g'.memOwed)
      (disk : s.DiskEvictable pf g'.diskOwed) (nonEmpty : s.NonEmpty g'.hollow) :
      Step .other ⟨s, g⟩ ⟨s, g'⟩

/-- Runs that take only the actions in `P`. -/
abbrev Runs (P : Action → Prop) : World → World → Prop := Moves (Step sc) P

/-- What holds between steps. -/
structure Inv (x : World) : Prop where
  wf : WF pf x.state
  content : sc.D → ∀ r ∈ x.state.liveItems, ItemOk pf (sc.whole r) (sc.val r) x.state r
  memEvictable : x.state.MemEvictable pf x.ghost.memOwed
  diskEvictable : x.state.DiskEvictable pf x.ghost.diskOwed
  nonEmpty : x.state.NonEmpty x.ghost.hollow
  covered : sc.T → Covered pf.flags x.state.diskSpace
  clock : sc.start ≤ x.state.clock

end Step

end StarCache
