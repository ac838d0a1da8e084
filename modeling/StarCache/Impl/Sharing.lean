import StarCache.Content.Disk
import StarCache.Foundation.RelyGuarantee
import StarCache.Impl.Read
import StarCache.Impl.Write

/-!
# Shared objects in flight

Sets, gets, reads and removes as threads that share items, blocks in memory, blocks on disk and
the bytes of the block files. A pointer that is kept counts: an item is destroyed with the last
one, and so is the item of a disk block, whose block then goes back to the space manager. The
mutexes of the blocks and of the items are taken and released where the program does so.

An action is one access to a shared object, and is taken as a whole: also a copy and a reset of
one shared pointer, which `clear_disk_blocks` and `_flush_block` do without the mutex that the
others lock. What is only computed from answers is no action, and neither is the bookkeeping of
the eviction component: what it and the policies say is the input of an action and may be
anything, as are the blocks that the space manager hands out and the outcome of a transfer. A transfer is complete or an error; `Content.ShortTransfers` deals with
the others. Memory blocks and segments are never given back, since nothing but the quota depends
on it.

The bytes of an object, the owner of a block, whether a disk block has been published and
whether the index has had an item are recorded for the proofs, and no action depends on them; only
the size of the object is used.
-/

namespace StarCache

open MachineInt

namespace Sharing

/-- A `MemBlockPtr`. -/
abbrev MemRef := Nat
/-- A `DiskBlockPtr`. -/
abbrev DiskRef := Nat

/-- Who keeps a `CacheItemPtr`. -/
inductive ItemHolder
  | index (id : CacheId)
  | thread (t : Nat)
deriving DecidableEq

/-- Who keeps a `DiskBlockPtr`. -/
inductive DiskHolder
  | block (r : ItemRef) (i : Nat)
  | thread (t : Nat)
deriving DecidableEq

/-- The mutexes of the lock manager, and those of the items. -/
inductive Mutex
  | block (shard : Nat)
  | item (r : ItemRef)
deriving DecidableEq

structure Item where
  cacheKey : CacheKey
  value : IOBuf
  released : Bool := false
  /-- The index has had it. -/
  linked : Bool := false
deriving Inhabited

def Item.size (item : Item) : Nat := item.value.length

structure MemBlock where
  owner : ItemRef × Nat
  slices : List (Option SegmentRef)
  state : BlockState

structure DiskBlock where
  owner : ItemRef × Nat
  id : BlockId
  published : Bool := false

structure Shared where
  /-- `_access_index`. -/
  index : CacheId → Option ItemRef
  items : ItemRef → Item
  itemCount : Nat
  itemHolders : ItemRef → List ItemHolder
  /-- `mem_block_item` of the blocks of an item. -/
  memSlot : ItemRef → Nat → Option MemRef
  /-- `disk_block_item` of the blocks of an item. -/
  diskSlot : ItemRef → Nat → Option DiskRef
  memBlocks : MemRef → MemBlock
  memCount : Nat
  segments : SegmentRef → BlockSegment
  segmentCount : Nat
  diskBlocks : DiskRef → DiskBlock
  diskCount : Nat
  diskHolders : DiskRef → List DiskHolder
  /-- The blocks that the space manager has handed out. -/
  allocated : BlockId → Bool
  /-- The bytes of the block files, by directory, file and offset. -/
  files : Nat → Nat → Nat → UInt8
  /-- Who has locked a mutex, and whether exclusively. -/
  mutexes : Mutex → List (Nat × Bool)

/-- An empty cache on files that hold anything. -/
def Shared.init (files : Nat → Nat → Nat → UInt8) : Shared where
  index _ := none
  items _ := default
  itemCount := 0
  itemHolders _ := []
  memSlot _ _ := none
  diskSlot _ _ := none
  memBlocks _ := ⟨(0, 0), [], .clean⟩
  memCount := 0
  segments _ := default
  segmentCount := 0
  diskBlocks _ := ⟨(0, 0), ⟨0, 0⟩, false⟩
  diskCount := 0
  diskHolders _ := []
  allocated _ := false
  files
  mutexes _ := []

/-! ## Inputs -/

/-- What is asked of the rest of the cache. -/
inductive Question
  | busy
  | checkWrite
  | flushAdmission
  | checkPromote
  | memEvicted
  | diskEvicted
  /-- The new memory of `align_iobuf`. -/
  | alignIobuf
deriving DecidableEq

@[reducible] def Question.Answer : Question → Type
  | .busy | .checkPromote => Bool
  | .checkWrite => BlockLocation
  | .flushAdmission => BlockAdmission
  | .memEvicted => List BlockKey
  | .diskEvicted => List CacheId
  | .alignIobuf => Option (Nat → UInt8)

/-- An error of a transfer, after which some of the bytes may have been moved. -/
structure Failure where
  status : Status
  not_ok : status.ok = false
  moved : Nat

structure Transfer where
  /-- The buffer can be written as it is. -/
  aligned : Bool
  /-- What new memory holds. -/
  fresh : Nat → UInt8
  failure : Option Failure
  /-- What `errno` holds when no call has failed. -/
  errno : Int

structure Input where
  answer : (q : Question) → q.Answer
  /-- There is memory for an item or a segment. -/
  granted : Bool
  /-- The block that the space manager picks. -/
  picked : Option BlockId
  transfer : Transfer

/-! ## Actions -/

inductive Atom
  | find (id : CacheId)
  | insert (id : CacheId) (r : ItemRef)
  | erase (id : CacheId)
  /-- The end of a `CacheItemPtr`. -/
  | dropItem (r : ItemRef)
  | newItem (cacheKey : CacheKey) (value : IOBuf)
  /-- The key and the size of an item. -/
  | getItem (r : ItemRef)
  | getReleased (r : ItemRef)
  | setReleased (r : ItemRef)
  | lock (exclusive : Bool) (x : Mutex)
  | unlock (x : Mutex)
  | getMem (r : ItemRef) (i : Nat)
  | setMem (r : ItemRef) (i : Nat) (m : Option MemRef)
  | getDisk (r : ItemRef) (i : Nat)
  | hasDisk (r : ItemRef) (i : Nat)
  | setDisk (r : ItemRef) (i : Nat) (d : Option DiskRef)
  /-- The end of a `DiskBlockPtr`. -/
  | dropDisk (d : DiskRef)
  | newMem (r : ItemRef) (i : Nat) (state : BlockState)
  | memState (m : MemRef)
  | getSlice (m : MemRef) (k : Nat)
  | setSlice (m : MemRef) (k : Int) (g : SegmentRef)
  /-- `MemCache::read_block`, for which the block is locked. -/
  | readMem (m : MemRef) (offset : Int) (size : Nat)
  | newSegment (offset size : Nat) (buf : IOBuf)
  | getSegment (g : SegmentRef)
  | newDisk (r : ItemRef) (i : Nat)
  | writeDisk (d : DiskRef) (seg : BlockSegment)
  | readDisk (d : DiskRef) (offset size : Nat)
  | ask (q : Question)
  /-- A `DCHECK`. -/
  | check (c : Bool)
  /-- The use of the pointer to an item that could not be allocated. -/
  | nullItem
  /-- A loop that does not end, since its index is too short. -/
  | endless

@[reducible] def Atom.Answer : Atom → Type
  | .find _ | .newItem _ _ => Option ItemRef
  | .getItem _ => CacheKey × Nat
  | .getReleased _ | .hasDisk _ _ => Bool
  | .getMem _ _ => Option MemRef
  | .getDisk _ _ | .newDisk _ _ => Option DiskRef
  | .newMem _ _ _ => MemRef
  | .memState _ => BlockState
  | .getSlice _ _ | .newSegment _ _ _ => Option SegmentRef
  | .readMem _ _ _ => List BlockSegment
  | .getSegment _ => BlockSegment
  | .writeDisk _ _ => Status
  | .readDisk _ _ _ => Status × IOBuf
  | .ask q => q.Answer
  | .nullItem | .endless => Empty
  | _ => Unit

namespace Shared

/-- A pointer to the item is kept. -/
def holdItem (s : Shared) (r : ItemRef) (h : ItemHolder) : Shared :=
  { s with itemHolders := Function.update s.itemHolders r (h :: s.itemHolders r) }

def holdDisk (s : Shared) (d : DiskRef) (h : DiskHolder) : Shared :=
  { s with diskHolders := Function.update s.diskHolders d (h :: s.diskHolders d) }

/-- A pointer to the disk block ends; the last one frees its block. -/
def dropDisk (s : Shared) (d : DiskRef) (h : DiskHolder) : Shared :=
  let rest := (s.diskHolders d).erase h
  { s with
    diskHolders := Function.update s.diskHolders d rest
    allocated := if rest = [] then Function.update s.allocated (s.diskBlocks d).id false
      else s.allocated }

def putSlot (s : Shared) (r : ItemRef) (i : Nat) (d : Option DiskRef) : Shared :=
  { s with diskSlot := Function.update s.diskSlot r (Function.update (s.diskSlot r) i d) }

/-- A block gives up its disk block. -/
def clearDisk (s : Shared) (r : ItemRef) (i : Nat) : Shared :=
  match s.diskSlot r i with
  | none => s
  | some d => (s.putSlot r i none).dropDisk d (.block r i)

/-- A block gets a disk block, to which the caller keeps a pointer. -/
def publish (s : Shared) (r : ItemRef) (i : Nat) (d : DiskRef) : Shared :=
  let s := ((s.clearDisk r i).holdDisk d (.block r i)).putSlot r i (some d)
  { s with
    diskBlocks := Function.update s.diskBlocks d { s.diskBlocks d with published := true } }

/-- The number of blocks of an item. -/
def blockCount (flags : Flags) (s : Shared) (r : ItemRef) : Nat :=
  blockCountOf flags (s.items r).size

/-- The end of an item: its blocks give up what they have. -/
def destroy (flags : Flags) (s : Shared) (r : ItemRef) : Shared :=
  let s := (List.range (s.blockCount flags r)).foldl (fun s i => s.clearDisk r i) s
  { s with memSlot := Function.update s.memSlot r fun _ => none }

/-- A pointer to the item ends; the last one destroys it. -/
def dropItem (flags : Flags) (s : Shared) (r : ItemRef) (h : ItemHolder) : Shared :=
  let rest := (s.itemHolders r).erase h
  let s := { s with itemHolders := Function.update s.itemHolders r rest }
  if rest = [] then s.destroy flags r else s

def putIndex (s : Shared) (id : CacheId) (r : Option ItemRef) : Shared :=
  { s with index := Function.update s.index id r }

/-- The index gives up an item. -/
def clearIndex (flags : Flags) (s : Shared) (id : CacheId) : Shared :=
  match s.index id with
  | none => s
  | some r => (s.putIndex id none).dropItem flags r (.index id)

def mark (s : Shared) (r : ItemRef) : Shared :=
  { s with items := Function.update s.items r { s.items r with linked := true } }

/-- The index gets an item, to which the caller keeps a pointer. -/
def link (flags : Flags) (s : Shared) (id : CacheId) (r : ItemRef) : Shared :=
  (((s.clearIndex flags id).holdItem r (.index id)).putIndex id (some r)).mark r

/-- The item is there, and has a block of this index. -/
def HasBlock (flags : Flags) (s : Shared) (r : ItemRef) (i : Nat) : Prop :=
  s.itemHolders r ≠ [] ∧ i < s.blockCount flags r

instance (flags : Flags) (s : Shared) (r : ItemRef) (i : Nat) : Decidable (s.HasBlock flags r i) :=
  inferInstanceAs (Decidable (s.itemHolders r ≠ [] ∧ i < s.blockCount flags r))

/-- The mutex can be locked. -/
def Admits (s : Shared) (exclusive : Bool) (x : Mutex) : Prop :=
  if exclusive = true then s.mutexes x = [] else ∀ h ∈ s.mutexes x, h.2 = false

instance (s : Shared) (exclusive : Bool) (x : Mutex) : Decidable (s.Admits exclusive x) :=
  inferInstanceAs (Decidable (if exclusive = true then _ else _))

def lock (s : Shared) (t : Nat) (exclusive : Bool) (x : Mutex) : Shared :=
  { s with mutexes := Function.update s.mutexes x ((t, exclusive) :: s.mutexes x) }

/-- The entry of a thread is taken out. -/
def unlock (s : Shared) (t : Nat) (x : Mutex) : Shared :=
  { s with mutexes := Function.update s.mutexes x ((s.mutexes x).eraseP fun h => h.1 == t) }

/-- The item is marked as released. -/
def release (s : Shared) (r : ItemRef) : Shared :=
  { s with items := Function.update s.items r { s.items r with released := true } }

def setMem (s : Shared) (r : ItemRef) (i : Nat) (m : Option MemRef) : Shared :=
  { s with memSlot := Function.update s.memSlot r (Function.update (s.memSlot r) i m) }

/-- A new item, to which the thread has a pointer. -/
def addItem (s : Shared) (t : Nat) (item : Item) : Shared :=
  { s with
    items := Function.update s.items s.itemCount item
    itemCount := s.itemCount + 1
    itemHolders := Function.update s.itemHolders s.itemCount [.thread t] }

def addMem (s : Shared) (block : MemBlock) : Shared :=
  { s with
    memBlocks := Function.update s.memBlocks s.memCount block
    memCount := s.memCount + 1 }

def addSegment (s : Shared) (seg : BlockSegment) : Shared :=
  { s with
    segments := Function.update s.segments s.segmentCount seg
    segmentCount := s.segmentCount + 1 }

/-- A new disk block, to which the thread has a pointer. -/
def addDisk (s : Shared) (t : Nat) (block : DiskBlock) : Shared :=
  { s with
    diskBlocks := Function.update s.diskBlocks s.diskCount block
    diskCount := s.diskCount + 1
    diskHolders := Function.update s.diskHolders s.diskCount [.thread t]
    allocated := Function.update s.allocated block.id true }

/-- A slice of a memory block is set. -/
def setSlice (s : Shared) (m : MemRef) (k : Nat) (g : SegmentRef) : Shared :=
  { s with
    memBlocks := Function.update s.memBlocks m { s.memBlocks m with
      slices := (s.memBlocks m).slices.set k (some g) } }

end Shared

/-- What is handed to the system: the buffer, or an aligned copy. -/
def written (flags : Flags) (tr : Transfer) (buf : IOBuf) : IOBuf :=
  if flags.enableOsPageCache || (tr.aligned && buf.length % flags.ioAlignUnitSize == 0) then buf
  else buf ++ (List.range (roundUp buf.length flags.ioAlignUnitSize - buf.length)).map fun i =>
    tr.fresh (buf.length + i)

/-- `DiskCache::write_block`. -/
def writeDisk (flags : Flags) (tr : Transfer) (s : Shared) (id : BlockId) (seg : BlockSegment) :
    Status × Shared :=
  if seg.offset % flags.sliceSize ≠ 0 then
    (⟨EINVAL, "offset must be aligned by slice size"⟩, s)
  else
    let data := written flags tr seg.buf
    match tr.failure with
    | none => (.OK, { s with files := writeBytes s.files (filePos flags id seg.offset) data })
    | some f => (f.status, { s with
        files := writeBytes s.files (filePos flags id seg.offset) (data.take f.moved) })

/-- `DiskCache::read_block`. The number of bytes read is kept in an `int`; an error may also be
that of the checksums. -/
def readDisk (flags : Flags) (tr : Transfer) (s : Shared) (id : BlockId) (offset size : Nat) :
    Status × IOBuf :=
  if offset % flags.sliceSize ≠ 0 then (⟨EINVAL, "offset must be aligned by slice size"⟩, [])
  else
    match tr.failure with
    | some f => (f.status, [])
    | none =>
        if i32 (BlockFile.alignedSize flags size) < 0 then
          (⟨tr.errno, "fail to read block file"⟩, [])
        else (.OK, readBytes s.files (filePos flags id offset) (BlockFile.alignedSize flags size))

/-- What an action of thread `t` does; `none` is undefined, or has to wait. -/
def effect (flags : Flags) (t : Nat) : (e : Atom) → Input → Shared → Option (e.Answer × Shared)
  | .find id, _, s =>
      match s.index id with
      | none => some (none, s)
      | some r => some (some r, s.holdItem r (.thread t))
  | .insert id r, _, s =>
      if .thread t ∈ s.itemHolders r then some ((), s.link flags id r) else none
  | .erase id, _, s => some ((), s.clearIndex flags id)
  | .dropItem r, _, s =>
      if .thread t ∈ s.itemHolders r then some ((), s.dropItem flags r (.thread t)) else none
  | .newItem cacheKey value, input, s =>
      if input.granted then some (some s.itemCount, s.addItem t { cacheKey, value })
      else some (none, s)
  | .getItem r, _, s =>
      if s.itemHolders r = [] then none else some (((s.items r).cacheKey, (s.items r).size), s)
  | .getReleased r, _, s => if s.itemHolders r = [] then none else some ((s.items r).released, s)
  | .setReleased r, _, s =>
      if s.itemHolders r = [] then none else some ((), s.release r)
  | .lock exclusive x, _, s =>
      if s.Admits exclusive x then some ((), s.lock t exclusive x) else none
  | .unlock x, _, s =>
      if (s.mutexes x).any fun h => h.1 == t then some ((), s.unlock t x) else none
  | .getMem r i, _, s => if s.HasBlock flags r i then some (s.memSlot r i, s) else none
  | .setMem r i m, _, s =>
      if s.HasBlock flags r i then some ((), s.setMem r i m) else none
  | .getDisk r i, _, s =>
      if s.HasBlock flags r i then
        match s.diskSlot r i with
        | none => some (none, s)
        | some d => some (some d, s.holdDisk d (.thread t))
      else none
  | .hasDisk r i, _, s =>
      if s.HasBlock flags r i then some ((s.diskSlot r i).isSome, s) else none
  | .setDisk r i none, _, s => if s.HasBlock flags r i then some ((), s.clearDisk r i) else none
  | .setDisk r i (some d), _, s =>
      if s.HasBlock flags r i ∧ .thread t ∈ s.diskHolders d then some ((), s.publish r i d)
      else none
  | .dropDisk d, _, s =>
      if .thread t ∈ s.diskHolders d then some ((), s.dropDisk d (.thread t)) else none
  | .newMem r i state, _, s =>
      some (s.memCount, s.addMem ⟨(r, i), (MemBlockItem.new flags state).slices, state⟩)
  | .memState m, _, s => some ((s.memBlocks m).state, s)
  | .getSlice m k, _, s => (s.memBlocks m).slices[k]?.map fun x => (x, s)
  | .setSlice m k g, _, s =>
      if 0 ≤ k ∧ k < (s.memBlocks m).slices.length then some ((), s.setSlice m k.toNat g) else none
  | .readMem m offset size, _, s =>
      (MemCache.readSegments flags s.segments (s.memBlocks m).slices offset size).map
        fun segs => (segs, s)
  | .newSegment offset size buf, input, s =>
      if input.granted then some (some s.segmentCount, s.addSegment ⟨offset, size, buf⟩)
      else some (none, s)
  | .getSegment g, _, s => some (s.segments g, s)
  | .newDisk r i, input, s =>
      match input.picked with
      | none => some (none, s)
      | some id =>
          if s.allocated id then some (none, s)
          else some (some s.diskCount, s.addDisk t { owner := (r, i), id })
  | .writeDisk d seg, input, s =>
      if s.diskHolders d = [] then none
      else some (writeDisk flags input.transfer s (s.diskBlocks d).id seg)
  | .readDisk d offset size, input, s =>
      if s.diskHolders d = [] then none
      else some (readDisk flags input.transfer s (s.diskBlocks d).id offset size, s)
  | .ask q, input, s => some (input.answer q, s)
  | .check c, _, s => if c then some ((), s) else none
  | .nullItem, _, _ | .endless, _, _ => none

abbrev Op := Thread Atom Atom.Answer

open Thread (forEach forUntil retry when)

/-- A single action. -/
abbrev perform (e : Atom) : Op e.Answer := Thread.perform e

end Sharing

end StarCache
