import StarCache.Impl.Sharing

/-!
# The calls on shared objects

`StarCacheImpl` as threads: every lock, every pointer that is copied or given up, and every path
out of a function. The ends of pointers that the program leaves to destructors are written out.
-/

namespace StarCache

open MachineInt

namespace Sharing

open Thread (forEach forUntil retry when)

/-- The parameters of the calls: the flags and the hash of the platform, the number of mutexes of
the lock manager, and whether `DCHECK` is compiled in. -/
structure Setup extends Platform where
  lockShardBits : Nat
  dcheck : Bool

/-- What an action does in this build: a `DCHECK` that is compiled out lets everything pass. -/
def Setup.effect (su : Setup) (t : Nat) : (e : Atom) → Input → Shared →
    Option (e.Answer × Shared)
  | .check c, input, s => Sharing.effect su.flags t (.check (c || !su.dcheck)) input s
  | e, input, s => Sharing.effect su.flags t e input s

variable (su : Setup)

/-- `ShardedLockManager::_mutex` for `block_shard`. -/
def Setup.mutex (key : BlockKey) : Mutex :=
  .block (u64 (key.cacheId.toNat + key.blockIndex : Nat) &&& (2 ^ su.lockShardBits - 1))

def lockBlock (exclusive : Bool) (key : BlockKey) : Op Unit :=
  perform (.lock exclusive (su.mutex key))

def unlockBlock (key : BlockKey) : Op Unit := perform (.unlock (su.mutex key))

/-- The end of a pointer that may be null. -/
def dropDiskBlock : Option DiskRef → Op Unit
  | none => pure ()
  | some d => perform (.dropDisk d)

/-! ## Items -/

/-- `CacheItem::block_size`. -/
def blockSizeOf (flags : Flags) (size blockIndex : Nat) : Nat :=
  let tailSize := u64 (size - blockIndex * flags.blockSize)
  if tailSize < flags.blockSize then tailSize else flags.blockSize

/-- `CacheItem::is_released`. -/
def isReleased (r : ItemRef) : Op Bool := do
  perform (.lock false (.item r))
  let released ← perform (.getReleased r)
  perform (.unlock (.item r))
  pure released

/-- `CacheItem::set_released(true)`. -/
def setReleased (r : ItemRef) : Op Bool := do
  perform (.lock true (.item r))
  let released ← perform (.getReleased r)
  when (!released) (perform (.setReleased r))
  perform (.unlock (.item r))
  pure (!released)

def blockHeld (r : ItemRef) (i : Nat) : Op Bool := do
  let m ← perform (.getMem r i)
  if m.isSome then pure true else perform (.hasDisk r i)

/-- `CacheItem::release_if_empty` under the mutex. -/
def releaseLocked (r : ItemRef) : Op Bool := do
  let released ← perform (.getReleased r)
  if released then pure false
  else do
    let item ← perform (.getItem r)
    let held ← forUntil id false (List.range (blockCountOf su.flags item.2)) (blockHeld r)
    if held then pure false
    else do
      perform (.setReleased r)
      pure true

/-- `CacheItem::release_if_empty`. -/
def releaseIfEmpty (r : ItemRef) : Op Bool := do
  perform (.lock true (.item r))
  let released ← releaseLocked su r
  perform (.unlock (.item r))
  pure released

/-- `CacheItem::clear_disk_blocks`. -/
def clearDiskBlocks (r : ItemRef) : Op Unit := do
  perform (.lock false (.item r))
  let item ← perform (.getItem r)
  forEach (List.range (blockCountOf su.flags item.2)) fun i => perform (.setDisk r i none)
  perform (.unlock (.item r))

/-- `BlockItem::clear_block`. -/
def clearBlock (r : ItemRef) (key : BlockKey) : Op Unit := do
  lockBlock su true key
  perform (.setMem r key.blockIndex none)
  perform (.setDisk r key.blockIndex none)
  unlockBlock su key

/-- `BlockItem::set_mem_block` with a lock. -/
def setMemBlock (r : ItemRef) (key : BlockKey) (m : Option MemRef) : Op Unit := do
  lockBlock su true key
  perform (.setMem r key.blockIndex m)
  unlockBlock su key

/-- `BlockItem::set_disk_block` with a lock. -/
def setDiskBlock (r : ItemRef) (key : BlockKey) (d : DiskRef) : Op Unit := do
  lockBlock su true key
  perform (.setDisk r key.blockIndex (some d))
  unlockBlock su key

/-- `_remove_cache_item`. -/
def removeCacheItem (id : CacheId) (r : ItemRef) : Op Unit := do
  perform (.erase id)
  let item ← perform (.getItem r)
  let blockCount := blockCountOf su.flags item.2
  forEach (List.range (min blockCount 4294967296)) fun i => clearBlock su r ⟨id, i⟩
  when (4294967296 ≤ blockCount) (.act .endless Empty.elim)

/-! ## Disk eviction -/

/-- `_process_evicted_disk_items`. -/
def processEvictedDiskItems : List CacheId → Op Unit
  | [] => pure ()
  | id :: rest => do
      match ← perform (.find id) with
      | none => pure ()
      | some r => do
          clearDiskBlocks su r
          let released ← releaseIfEmpty su r
          when released (removeCacheItem su id r)
          perform (.dropItem r)
          processEvictedDiskItems rest

/-- `_evict_for_disk_block`. -/
def evictForDiskBlock : Op Unit := do
  let evicted ← perform (.ask .diskEvicted)
  processEvictedDiskItems su evicted

/-- `_alloc_disk_block`. -/
def allocDiskBlock (r : ItemRef) (i : Nat) : Op (Option DiskRef) :=
  retry (perform (.newDisk r i)) (evictForDiskBlock su) su.flags.maxRetryWhenAllocate

/-! ## Flush -/

/-- The loop of `MemBlockItem::list_segments`. -/
def listSlices (m : MemRef) : List Nat → List SegmentRef → Op (List SegmentRef)
  | [], acc => pure acc
  | k :: rest, acc => do
      let x ← perform (.getSlice m k)
      listSlices m rest (MemBlockItem.collectSegments acc x)

/-- `MemBlockItem::list_segments`. -/
def listSegments (m : MemRef) : Op (List SegmentRef) :=
  listSlices m (List.range (blockSliceCount su.flags)) []

/-- What the pointers point to. -/
def getSegments : List SegmentRef → Op (List BlockSegment)
  | [] => pure []
  | g :: rest => do
      let seg ← perform (.getSegment g)
      let segs ← getSegments rest
      pure (seg :: segs)

/-- The loop over the segments of `_flush_block_segments`. -/
def writeSegments (d : DiskRef) : List BlockSegment → Op Status
  | [] => pure .OK
  | seg :: rest => do
      let st ← perform (.writeDisk d seg)
      if st.ok then writeSegments d rest else pure st

/-- The flush into a new disk block, which nobody else sees before it is written. -/
def flushNew (r : ItemRef) (key : BlockKey) (segs : List BlockSegment) : Op Status := do
  let item ← perform (.getItem r)
  perform (.check (StarCacheImpl.continuousSegmentsSize segs 0 =
    blockSizeOf su.flags item.2 key.blockIndex))
  match ← allocDiskBlock su r key.blockIndex with
  | none => pure ⟨E_INTERNAL, "allocate disk block failed"⟩
  | some d => do
      let st ← writeSegments d segs
      when st.ok (setDiskBlock su r key d)
      perform (.dropDisk d)
      pure st

/-- The flush into the disk block that there is. -/
def flushOver (r : ItemRef) (key : BlockKey) (segs : List BlockSegment) (d : DiskRef) :
    Op Status := do
  lockBlock su true key
  let st ← writeSegments d segs
  when st.ok (perform (.setDisk r key.blockIndex (some d)))
  unlockBlock su key
  perform (.dropDisk d)
  pure st

def flushToDisk (r : ItemRef) (key : BlockKey) (segs : List BlockSegment) :
    Option DiskRef → Op Status
  | none => flushNew su r key segs
  | some d => flushOver su r key segs d

/-- `_flush_block_segments`. -/
def flushBlockSegments (r : ItemRef) (key : BlockKey) (segs : List BlockSegment) : Op Status := do
  lockBlock su false key
  let disk ← perform (.getDisk r key.blockIndex)
  unlockBlock su key
  let st ← flushToDisk su r key segs disk
  setMemBlock su r key none
  pure st

/-- The end of `_flush_block` for a block that is not to be kept. -/
def deleteBlock (r : ItemRef) (key : BlockKey) : Op Unit := do
  clearBlock su r key
  let released ← releaseIfEmpty su r
  when released (removeCacheItem su key.cacheId r)

/-- `_flush_block` once the block is to be flushed. -/
def flushAdmitted (r : ItemRef) (key : BlockKey) (m : MemRef) : Op Unit := do
  let refs ← listSegments su m
  let segs ← getSegments refs
  let present ← perform (.hasDisk r key.blockIndex)
  let item ← perform (.getItem r)
  if !present && StarCacheImpl.continuousSegmentsSize segs 0 !=
      blockSizeOf su.flags item.2 key.blockIndex then
    deleteBlock su r key
  else do
    let _ ← flushBlockSegments su r key segs
    pure ()

/-- `_flush_block`. -/
def flushBlock (r : ItemRef) (key : BlockKey) : Op Unit := do
  let released ← isReleased r
  if released then pure ()
  else
    match ← perform (.getMem r key.blockIndex) with
    | none => pure ()
    | some m =>
        match ← perform (.ask .flushAdmission) with
        | .skip => pure ()
        | .delete => deleteBlock su r key
        | .flush => flushAdmitted su r key m

/-! ## Memory eviction -/

/-- The look at an evicted block under its lock; answers whether it is to be flushed. -/
def dropMemBlock (r : ItemRef) (i : Nat) : Op Bool := do
  match ← perform (.getMem r i) with
  | none => pure false
  | some m => do
      let state ← perform (.memState m)
      if state = .dirty then pure true
      else do
        let present ← perform (.hasDisk r i)
        if present then do
          perform (.setMem r i none)
          pure false
        else pure true

/-- The body of the loop of `_process_evicted_mem_blocks`. -/
def processEvictedMemBlock (key : BlockKey) : Op Unit := do
  match ← perform (.find key.cacheId) with
  | none => pure ()
  | some r => do
      lockBlock su true key
      let item ← perform (.getItem r)
      let flush ← if blockCountOf su.flags item.2 ≤ key.blockIndex then pure false
        else dropMemBlock r key.blockIndex
      unlockBlock su key
      when flush (flushBlock su r key)
      perform (.dropItem r)

/-- `_evict_mem_block` and `_evict_for_mem_block`. -/
def evictMemBlock : Op Unit := do
  let evicted ← perform (.ask .memEvicted)
  forEach evicted (processEvictedMemBlock su)

/-- `_alloc_cache_item`. -/
def allocCacheItem (cacheKey : CacheKey) (value : IOBuf) : Op (Option ItemRef) :=
  retry (perform (.newItem cacheKey value)) (evictMemBlock su) su.flags.maxRetryWhenAllocate

/-- `_alloc_block_segment`. -/
def allocBlockSegment (offset size : Nat) (buf : IOBuf) : Op (Option SegmentRef) :=
  retry (perform (.newSegment offset size buf)) (evictMemBlock su) su.flags.maxRetryWhenAllocate

/-! ## Promotion -/

/-- The slices that `MemCache::write_block` sets for a segment. -/
def sliceIndexes (flags : Flags) (seg : BlockSegment) : List Int :=
  if seg.buf.length = 0 then []
  else
    let start := off2slice flags seg.offset
    let stop := off2slice flags (u32 (seg.offset + seg.size - 1))
    (List.range (stop + 1 - start).toNat).map fun n : Nat => start + n

/-- `MemCache::write_block`. -/
def writeMem (m : MemRef) (refs : List SegmentRef) : Op Unit :=
  forEach refs fun g => do
    let seg ← perform (.getSegment g)
    forEach (sliceIndexes su.flags seg) fun k => perform (.setSlice m k g)

def allocSegments : List BlockSegment → Op (List SegmentRef)
  | [] => pure []
  | seg :: rest => do
      let g ← allocBlockSegment su seg.offset seg.size seg.buf
      let refs ← allocSegments rest
      pure (g.toList ++ refs)

/-- The segments go to a new memory block, or under the lock to the one that there is. -/
def promoteSegments (r : ItemRef) (key : BlockKey) (refs : List SegmentRef) : Op Unit := do
  lockBlock su true key
  match ← perform (.getMem r key.blockIndex) with
  | none => do
      unlockBlock su key
      let m ← perform (.newMem r key.blockIndex .clean)
      writeMem su m refs
      setMemBlock su r key (some m)
  | some m => do
      writeMem su m refs
      unlockBlock su key

/-- `_promote_block_segments`. -/
def promoteBlockSegments (r : ItemRef) (key : BlockKey) (segs : List BlockSegment) : Op Unit := do
  let refs ← allocSegments su segs
  if refs.isEmpty then pure () else promoteSegments su r key refs

/-! ## Reads -/

open StarCacheImpl (ReadProgress BlockRange blockRanges clampSize alignedRange)

/-- Read the `size` bytes at the cursor from the disk block. -/
def readGap (d : DiskRef) (p : ReadProgress) (size : Nat) : Op (Status × ReadProgress) := do
  let result ← perform (.readDisk d (u32 p.cursor) size)
  if result.1.ok then
    pure (.OK, { p with
      buf := p.buf ++ IOBuf.appendTo result.2 size 0
      diskSegments := p.diskSegments ++ [⟨u32 p.cursor, size, result.2⟩] })
  else pure (result.1, p)

/-- The loop over the memory segments. -/
def mergeSegments (disk : Option DiskRef) :
    List BlockSegment → ReadProgress → Op (Status × ReadProgress)
  | [], p => pure (.OK, p)
  | seg :: rest, p =>
      if p.cursor < seg.offset then
        match disk with
        | none => pure (.OK, { p with holeExist := true })
        | some d => do
            let result ← readGap d p (u32 (seg.offset - p.cursor))
            if result.1.ok then mergeSegments disk rest (result.2.append seg) else pure result
      else mergeSegments disk rest (p.append seg)

/-- What is still missing at the end of the range. -/
def readRest (disk : Option DiskRef) (size : Nat) (p : ReadProgress) :
    Op (Status × ReadProgress) :=
  match disk with
  | none => pure (.OK, p)
  | some d =>
      if p.buf.length < size then readGap d p (u32 (size - p.buf.length)) else pure (.OK, p)

/-- `MemCache::read_block` for a pointer that may be null. -/
def readMemBlock (mem : Option MemRef) (offset : Int) (size : Nat) : Op (List BlockSegment) :=
  match mem with
  | none => pure []
  | some m => if size = 0 then pure [] else perform (.readMem m offset size)

/-- The part of `_read_block` under the shared lock. -/
def readLocked (mem : Option MemRef) (disk : Option DiskRef) (offset : Int) (size : Nat) :
    Op (Status × ReadProgress) := do
  let segments ← readMemBlock mem offset size
  let merged ← mergeSegments disk segments { cursor := offset }
  if merged.1.ok then readRest disk size merged.2 else pure merged

/-- `_read_block` after the lock has been released: the answer, and the promotion. -/
def readUnlocked (r : ItemRef) (key : BlockKey) (size : Nat) (p : ReadProgress) : Op Status :=
  if p.buf.length < size ∨ p.holeExist = true then
    pure ⟨ENOENT, "can not read full block from cache"⟩
  else do
    let promote ← perform (.ask .checkPromote)
    when (!p.diskSegments.isEmpty && promote) (promoteBlockSegments su r key p.diskSegments)
    pure .OK

/-- `_read_block` once it has the pointers. -/
def readHolding (r : ItemRef) (key : BlockKey) (offset : Int) (size : Nat) (mem : Option MemRef)
    (disk : Option DiskRef) : Op (Status × IOBuf) := do
  let result ← readLocked mem disk offset size
  if result.1.ok then do
    unlockBlock su key
    let st ← readUnlocked su r key size result.2
    dropDiskBlock disk
    pure (st, result.2.buf)
  else do
    -- the pointer ends before the lock does
    dropDiskBlock disk
    unlockBlock su key
    pure (result.1, result.2.buf)

/-- `_read_block`. -/
def readBlock (r : ItemRef) (key : BlockKey) (offset : Int) (size : Nat) :
    Op (Status × IOBuf) := do
  lockBlock su false key
  let mem ← perform (.getMem r key.blockIndex)
  let disk ← perform (.getDisk r key.blockIndex)
  readHolding su r key offset size mem disk

def readBlocks (id : CacheId) (r : ItemRef) : List BlockRange → IOBuf → Op (Status × IOBuf)
  | [], buf => pure (.OK, buf)
  | range :: rest, buf => do
      let result ← readBlock su r ⟨id, range.blockIndex⟩ range.offset range.size
      if result.1.ok then readBlocks id r rest (buf ++ result.2) else pure (result.1, buf)

/-- `_read_cache_item`. -/
def readCacheItem (id : CacheId) (r : ItemRef) (offset : Int) (size : Nat) :
    Op (Status × IOBuf) := do
  let item ← perform (.getItem r)
  let size := clampSize item.2 offset size
  if size = 0 then pure (.OK, [])
  else do
    let range := alignedRange su.flags item.2 offset size
    let result ← readBlocks su id r (blockRanges su.flags range.1 range.2) []
    if result.1.ok then do
      when (u32 (off2block su.flags range.2) = 4294967295) (.act .endless Empty.elim)
      pure (.OK, (result.2.drop (u64 (offset - range.1))).take size)
    else pure result

/-! ## Writes -/

/-- The copy of the caller's buffer that a block in memory holds. -/
def blockBuffer (buf : IOBuf) : Op (Option IOBuf) :=
  if su.flags.enableOsPageCache then pure (some buf)
  else do
    match ← perform (.ask .alignIobuf) with
    | none => pure none
    | some fresh =>
        pure (some (buf ++ (List.range (roundUp buf.length su.flags.ioAlignUnitSize -
          buf.length)).map fun i => fresh (buf.length + i)))

/-- A block that goes to memory. -/
def writeMemBlock (r : ItemRef) (key : BlockKey) (buf : IOBuf) : Op Status := do
  match ← blockBuffer su buf with
  | none => pure ⟨ENOMEM, "align io buffer failed"⟩
  | some sbuf =>
      match ← allocBlockSegment su 0 (u32 buf.length) sbuf with
      | none => pure ⟨E_INTERNAL, "allocate segment failed"⟩
      | some g => do
          let m ← perform (.newMem r key.blockIndex .dirty)
          writeMem su m [g]
          setMemBlock su r key (some m)
          pure .OK

/-- A block that goes to disk at once. -/
def writeDiskBlock (r : ItemRef) (key : BlockKey) (buf : IOBuf) : Op Status := do
  match ← allocDiskBlock su r key.blockIndex with
  | none => pure ⟨E_INTERNAL, "allocate disk block failed"⟩
  | some d => do
      let st ← perform (.writeDisk d ⟨0, u32 buf.length, buf⟩)
      when st.ok (setDiskBlock su r key d)
      perform (.dropDisk d)
      pure st

/-- `_write_block`. -/
def writeBlock (r : ItemRef) (key : BlockKey) (buf : IOBuf) : Op Status := do
  match ← perform (.ask .checkWrite) with
  | .mem => writeMemBlock su r key buf
  | .disk => writeDiskBlock su r key buf
  | .none => pure ⟨E_INTERNAL, "write block is rejected for overload"⟩

/-- The loop over the blocks of a new item, and its publication. -/
def writeBlocks (id : CacheId) (r : ItemRef) (buf : IOBuf) : Op Status := do
  let endBlockIndex := u32 ((buf.length - 1) / su.flags.blockSize : Nat)
  let st ← forUntil (fun st => !st.ok) .OK (List.range (endBlockIndex + 1)) fun i =>
    writeBlock su r ⟨id, i⟩ (StarCacheImpl.blockBytes su.flags buf i)
  if st.ok then do
    when (endBlockIndex = 4294967295) (.act .endless Empty.elim)
    perform (.insert id r)
    pure .OK
  else pure st

/-- `_write_cache_item`. A failed allocation of the item is not checked. -/
def writeCacheItem (id : CacheId) (cacheKey : CacheKey) (buf : IOBuf) : Op Status := do
  match ← allocCacheItem su cacheKey buf with
  | none => .act .nullItem Empty.elim
  | some r => do
      let st ← writeBlocks su id r buf
      perform (.dropItem r)
      pure st

/-! ## The public operations -/

def set (cacheKey : CacheKey) (buf : IOBuf) (overwrite : Bool) : Op Status :=
  if buf.isEmpty then pure ⟨E_INTERNAL, "cache value should not be empty"⟩
  else do
    let busy ← perform (.ask .busy)
    if busy then pure ⟨EBUSY, "the cache system is busy now"⟩
    else do
      let id := su.cachekey2id cacheKey
      match ← perform (.find id) with
      | none => writeCacheItem su id cacheKey buf
      | some r =>
          if overwrite then do
            removeCacheItem su id r
            let st ← writeCacheItem su id cacheKey buf
            perform (.dropItem r)
            pure st
          else do
            perform (.dropItem r)
            pure ⟨EEXIST, "the cache object already exists"⟩

/-- The part of `get` and `read` after the item has been found. -/
def readFound (id : CacheId) (cacheKey : CacheKey) (r : ItemRef) (request : Option (Int × Nat)) :
    Op (Status × IOBuf) := do
  let item ← perform (.getItem r)
  if item.1 ≠ cacheKey then pure (⟨ENOENT, "The target not found"⟩, [])
  else do
    let released ← isReleased r
    if released then pure (⟨ENOENT, "The target not found"⟩, [])
    else
      match request with
      | none => readCacheItem su id r 0 item.2
      | some (offset, size) => readCacheItem su id r offset size

/-- `get`, and `read` for an offset and a size. -/
def read (cacheKey : CacheKey) (request : Option (Int × Nat)) : Op (Status × IOBuf) := do
  let id := su.cachekey2id cacheKey
  match ← perform (.find id) with
  | none => pure (⟨ENOENT, "The target not found"⟩, [])
  | some r => do
      let result ← readFound su id cacheKey r request
      perform (.dropItem r)
      pure result

/-- `remove` after the item has been found. -/
def removeFound (id : CacheId) (cacheKey : CacheKey) (r : ItemRef) : Op Status := do
  let item ← perform (.getItem r)
  if item.1 ≠ cacheKey then pure ⟨ENOENT, "The target not found"⟩
  else do
    let released ← setReleased r
    when released (removeCacheItem su id r)
    pure .OK

def remove (cacheKey : CacheKey) : Op Status := do
  let id := su.cachekey2id cacheKey
  match ← perform (.find id) with
  | none => pure ⟨ENOENT, "The target not found"⟩
  | some r => do
      let st ← removeFound su id cacheKey r
      perform (.dropItem r)
      pure st

inductive Call
  | set (cacheKey : CacheKey) (buf : IOBuf) (overwrite : Bool)
  | read (cacheKey : CacheKey) (request : Option (Int × Nat))
  | remove (cacheKey : CacheKey)
deriving DecidableEq

/-- What a call runs. The result names the call. -/
def Call.thread : Call → Op (Call × Status × IOBuf)
  | .set cacheKey buf overwrite => do
      let st ← Sharing.set su cacheKey buf overwrite
      pure (.set cacheKey buf overwrite, st, [])
  | .read cacheKey request => do
      let result ← Sharing.read su cacheKey request
      pure (.read cacheKey request, result)
  | .remove cacheKey => do
      let st ← Sharing.remove su cacheKey
      pure (.remove cacheKey, st, [])

/-- A state of the cache with the operations in flight. -/
abbrev Flight := Pool Shared Atom Atom.Answer (Call × Status × IOBuf)

abbrev Move := Label Call Atom Atom.Answer (Call × Status × IOBuf)

end Sharing

end StarCache
