import StarCache.DiskCache
import StarCache.MemCache
import StarCache.Policies

/-!
# Eviction, flush and allocation

The private half of `StarCacheImpl` that every allocation may enter: an
allocation that finds no room evicts, eviction of a memory block may flush it,
and a flush may allocate, and so evict, on disk.
-/

namespace StarCache

open Prog MachineInt

namespace StarCacheImpl

/-- The values of a `uint32_t` loop index from 0 below `count`; the loop does not
end when the index cannot reach `count`. -/
def blockIndexes (count : Nat) : Prog State (List Nat) := do
  require (count < 4294967296)
  pure (List.range count)

section

variable (pf : Platform)

/-- `_remove_cache_item`. -/
def removeCacheItem (id : CacheId) (r : ItemRef) : Prog State Unit := do
  indexRemove pf id r
  let s ← read
  let indexes ← blockIndexes ((s.items r).blockCount pf.flags)
  forEach indexes fun i => do
    lock true ⟨id, i⟩
    let _ ← getBlock r i
    clearBlock pf r i
    MemCache.evictUntrack pf ⟨id, i⟩
    unlock true ⟨id, i⟩
  DiskCache.evictUntrack pf id

/-! ## Disk eviction -/

/-- The body of the loop of `_process_evicted_disk_items`. -/
def processEvictedDiskItem (id : CacheId) (r : ItemRef) : Prog State Unit := scope pf do
  hold (.item r)
  emit (.diskCleared id r)
  clearDiskBlocks pf r
  if ← releaseIfEmpty r then removeCacheItem pf id r else pure ()

/-- `_process_evicted_disk_items`, which returns at the first id that is not in
the index. -/
def processEvictedDiskItems : List CacheId → Prog State Unit
  | [] => pure ()
  | id :: rest => do
      let s ← read
      match s.find id with
      | none => emit (.diskMissing id (rest.filter fun id => (s.find id).isSome))
      | some r => do
          processEvictedDiskItem pf id r
          processEvictedDiskItems rest

/-- `_evict_for_disk_block`. -/
def evictForDiskBlock (id : CacheId) (size : Nat) : Prog State Unit := do
  let evicted ← DiskCache.evictFor pf id (u64 (size * pf.flags.diskEvictTimes : Nat))
  processEvictedDiskItems pf evicted

/-- `_alloc_disk_block`. -/
def allocDiskBlock (key : BlockKey) : Prog State (Option BlockId) :=
  retry (fun _ => DiskCache.newBlockItem pf)
    (evictForDiskBlock pf key.cacheId pf.flags.blockSize) 0 pf.flags.maxRetryWhenAllocate

/-! ## Flush -/

/-- `_continuous_segments_size`, from the position `size` on. -/
def continuousSegmentsSize : List BlockSegment → Nat → Nat
  | [], size => size
  | seg :: rest, size =>
      if seg.offset ≠ size then size else continuousSegmentsSize rest (size + seg.size)

def writeSegments (id : BlockId) (segs : List BlockSegment) : Prog State Status :=
  forUntil (fun st => !st.ok) .OK segs (DiskCache.writeBlock pf id)

/-- The flush into the disk block the block has. -/
def flushOver (r : ItemRef) (key : BlockKey) (refs : List SegmentRef) (id : BlockId) :
    Prog State Status := do
  lock true key
  let s ← read
  let st ← writeSegments pf id (refs.map s.segments)
  if st.ok then do
    setDiskBlock pf r key.blockIndex id
    unlock true key
    pure st
  else do
    unlock true key
    pure st

/-- The flush into a new disk block, which becomes visible only when it is
written. -/
def flushNew (r : ItemRef) (key : BlockKey) (refs : List SegmentRef) : Prog State Status := do
  match ← allocDiskBlock pf key with
  | none => pure ⟨E_INTERNAL, "allocate disk block failed"⟩
  | some id => scope pf do
      hold (.diskBlock id)
      let s ← read
      let st ← writeSegments pf id (refs.map s.segments)
      if st.ok then do
        lock true key
        setDiskBlock pf r key.blockIndex id
        unlock true key
        pure st
      else pure st

/-- The branches of `_flush_block_segments`. -/
def flushToDisk (r : ItemRef) (key : BlockKey) (refs : List SegmentRef) :
    Option BlockId → Prog State Status
  | some id => flushOver pf r key refs id
  | none => flushNew pf r key refs

/-- `_flush_block_segments`. -/
def flushBlockSegments (r : ItemRef) (key : BlockKey) (refs : List SegmentRef) :
    Prog State Status := do
  lock false key
  let block ← getBlock r key.blockIndex
  unlock false key
  let st ← flushToDisk pf r key refs block.diskBlockItem
  let s ← read
  when (!st.ok) (emit (.flushFailed key r (s.items r)))
  lock true key
  setMemBlock pf r key.blockIndex none
  unlock true key
  pure st

/-- The end of `_flush_block` for a block that is not to be kept. -/
def deleteBlock (r : ItemRef) (key : BlockKey) : Prog State Status := do
  emit (.blockDeleted key r)
  lock true key
  clearBlock pf r key.blockIndex
  unlock true key
  if ← releaseIfEmpty r then do
    removeCacheItem pf key.cacheId r
    pure .OK
  else pure .OK

end

variable (rt : Runtime)

/-- The admission decision of `_flush_block`. -/
def flushAdmission (n : Nat) (s : State) (item : CacheItem) (key : BlockKey) : BlockAdmission :=
  if item.pinned then (if s.hasDiskLayer then .flush else .skip)
  else if !s.hasDiskLayer then .delete
  else rt.admissionPolicy.checkAdmission n s item key

/-- `_flush_block` with the eviction handle of the item taken; `tracked` says
whether there is one. -/
def flushTouched (r : ItemRef) (key : BlockKey) (tracked : Bool) : Prog State Status := do
  let block ← getBlock r key.blockIndex
  match block.memBlockItem with
  | none => pure .OK
  | some memBlock => do
      hold (.memBlock memBlock)
      let n ← tick
      let s ← read
      let item := s.items r
      match flushAdmission rt n s item key with
      | .skip => do
          when (!item.pinned)
            (MemCache.evictTrack rt.toPlatform key (item.blockSize rt.flags key.blockIndex))
          pure .OK
      | .delete => deleteBlock rt.toPlatform r key
      | .flush => do
          require (blockSliceCount rt.flags ≠ 0)
          let refs := memBlock.listSegments
          -- part of a block must not become a disk block
          if block.diskBlockItem = none ∧
              continuousSegmentsSize (refs.map s.segments) 0 ≠
                item.blockSize rt.flags key.blockIndex then
            deleteBlock rt.toPlatform r key
          else do
            let st ← flushBlockSegments rt.toPlatform r key refs
            when (st.ok && !tracked && !item.pinned)
              (DiskCache.evictTrack rt.toPlatform key.cacheId item.size)
            pure st

/-- `_flush_block`. -/
def flushBlock (r : ItemRef) (key : BlockKey) : Prog State Status := do
  let s ← read
  if (s.items r).released then pure .OK
  else do
    let handle ← DiskCache.evictTouch rt.toPlatform key.cacheId true
    let st ← scope rt.toPlatform (flushTouched rt r key handle.isSome)
    DiskCache.evictRelease handle
    pure st

/-! ## Memory eviction -/

/-- What `_process_evicted_mem_blocks` does with the item of an evicted key. -/
def processEvictedMemItem (key : BlockKey) (r : ItemRef) : Prog State Unit :=
  scope rt.toPlatform do
    hold (.item r)
    lock true key
    let s ← read
    -- the key may belong to an item that has been replaced
    if (s.items r).blockCount rt.flags ≤ key.blockIndex then unlock true key
    else do
      let block ← getBlock r key.blockIndex
      match block.memBlockItem with
      | none => unlock true key
      | some memBlock => do
          hold (.memBlock memBlock)
          if memBlock.state = .dirty ∨ block.diskBlockItem = none then do
            unlock true key
            let _ ← flushBlock rt r key
            pure ()
          else do
            setMemBlock rt.toPlatform r key.blockIndex none
            unlock true key

def processEvictedMemBlock (key : BlockKey) : Prog State Unit := do
  let s ← read
  match s.find key.cacheId with
  | none => pure ()
  | some r => processEvictedMemItem rt key r

/-- `_process_evicted_mem_blocks`. -/
def processEvictedMemBlocks (evicted : List BlockKey) : Prog State Unit :=
  forEach evicted (processEvictedMemBlock rt)

/-- `_evict_mem_block`. -/
def evictMemBlock (size : Nat) : Prog State Unit := do
  let evicted ← MemCache.evict (u64 (size * rt.flags.memEvictTimes : Nat))
  processEvictedMemBlocks rt evicted

/-- `_evict_for_mem_block`. -/
def evictForMemBlock (key : BlockKey) (size : Nat) : Prog State Unit := do
  let evicted ← MemCache.evictFor rt.toPlatform key (u64 (size * rt.flags.memEvictTimes : Nat))
  processEvictedMemBlocks rt evicted

/-! ## Allocation -/

/-- `_alloc_cache_item`. -/
def allocCacheItem (cacheKey : CacheKey) (size expireTime : Nat) : Prog State (Option ItemRef) :=
  retry (fun i => MemCache.newCacheItem rt.toPlatform cacheKey size expireTime (i != 0))
    (evictMemBlock rt size) 0 rt.flags.maxRetryWhenAllocate

/-- `_alloc_block_segment`. -/
def allocBlockSegment (key : BlockKey) (offset size : Nat) (buf : IOBuf) :
    Prog State (Option SegmentRef) :=
  retry (fun i => MemCache.newBlockSegment rt.toPlatform offset size buf (i != 0))
    (evictForMemBlock rt key size) 0 rt.flags.maxRetryWhenAllocate

end StarCacheImpl

end StarCache
