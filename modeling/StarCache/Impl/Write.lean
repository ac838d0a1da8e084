import StarCache.Impl.Evict

/-!
# Writes

`_write_cache_item` builds a new item block by block and publishes it at the end.
-/

namespace StarCache

open Prog MachineInt

namespace StarCacheImpl

variable (rt : Runtime)

/-- The copy of the caller's buffer that a block in memory holds. -/
def blockBuffer (buf : IOBuf) : Prog State (Option IOBuf) :=
  if rt.flags.enableOsPageCache then pure (some buf) else BlockFile.alignIobuf rt.toPlatform buf

/-- A block that goes to memory. -/
def writeMemBlock (r : ItemRef) (key : BlockKey) (buf : IOBuf) (pinned : Bool) :
    Prog State Status := do
  match ← blockBuffer rt buf with
  | none => pure ⟨ENOMEM, "align io buffer failed"⟩
  | some sbuf => do
      match ← allocBlockSegment rt key 0 (u32 buf.length) sbuf with
      | none => pure ⟨E_INTERNAL, "allocate segment failed"⟩
      | some g => do
          let memBlock ← MemCache.writeBlock rt.toPlatform (.new rt.flags .dirty) [g]
          lock true key
          setMemBlock rt.toPlatform r key.blockIndex (some memBlock)
          unlock true key
          let s ← read
          when (!pinned || s.hasDiskLayer) (MemCache.evictTrack rt.toPlatform key
            ((s.items r).blockSize rt.flags key.blockIndex))
          pure .OK

/-- A block that goes to disk at once. -/
def writeDiskBlock (r : ItemRef) (key : BlockKey) (buf : IOBuf) (pinned : Bool) :
    Prog State Status := do
  match ← allocDiskBlock rt.toPlatform key with
  | none => pure ⟨E_INTERNAL, "allocate disk block failed"⟩
  | some id => scope rt.toPlatform do
      hold (.diskBlock id)
      let st ← DiskCache.writeBlock rt.toPlatform id ⟨0, u32 buf.length, buf⟩
      if st.ok then do
        lock true key
        setDiskBlock rt.toPlatform r key.blockIndex id
        unlock true key
        let s ← read
        when (!pinned) (DiskCache.evictTrack rt.toPlatform key.cacheId (s.items r).size)
        pure .OK
      else pure st

/-- `_write_block`. -/
def writeBlock (r : ItemRef) (key : BlockKey) (buf : IOBuf) (options : Option WriteOptions) :
    Prog State Status := do
  let _ ← getBlock r key.blockIndex
  let n ← tick
  let s ← read
  let location ← deref (rt.promotionPolicy.checkWrite n s (s.items r) key options)
  match location with
  | .mem => writeMemBlock rt r key buf (options.any (·.pinned))
  | .disk => writeDiskBlock rt r key buf (options.any (·.pinned))
  | .none => pure ⟨E_INTERNAL, "write block is rejected for overload"⟩

/-- The bytes of block `i`. -/
def blockBytes (flags : Flags) (buf : IOBuf) (i : Nat) : IOBuf :=
  if 1 < (buf.length - 1) / flags.blockSize + 1 then
    IOBuf.appendTo buf flags.blockSize (i * flags.blockSize)
  else buf

/-- The loop over the blocks of a new item, and its publication. -/
def writeBlocks (id : CacheId) (r : ItemRef) (buf : IOBuf) (options : Option WriteOptions) :
    Prog State Status := do
  when (options.any (·.pinned)) (do let _ ← setPinned r true)
  let endBlockIndex := u32 ((buf.length - 1) / rt.flags.blockSize : Nat)
  let st ← forUntil (fun st => !st.ok) .OK (List.range (endBlockIndex + 1)) fun i =>
    writeBlock rt r ⟨id, i⟩ (blockBytes rt.flags buf i) options
  if st.ok then do
    -- a 32-bit index does not get past the greatest one
    require (endBlockIndex ≠ 4294967295)
    indexInsert rt.toPlatform id r
    pure .OK
  else pure st

/-- `_write_cache_item`. A failed allocation of the item is not checked. -/
def writeCacheItem (id : CacheId) (cacheKey : CacheKey) (buf : IOBuf)
    (options : Option WriteOptions) : Prog State Status := do
  let n ← tick
  let ttlSeconds := (options.map (·.ttlSeconds)).getD 0
  let expireTime := u64 (rt.env.monotonicTime n + ttlSeconds)
  match ← allocCacheItem rt cacheKey buf.length expireTime with
  | none => undefined
  | some r => scope rt.toPlatform do
      hold (.item r)
      writeBlocks rt id r buf options

end StarCacheImpl

end StarCache
