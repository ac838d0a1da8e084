import StarCache.CacheItem
import StarCache.Foundation.Interleaving
import StarCache.Platform

/-!
# Operations in flight

Sets, removes and the two eviction passes as threads over the access index and the items. An
action is one critical section of the code: a call of the index, of the state of an item, or the
work on one block under its lock. The index takes an item out by its id; the operation that
asks for it, and so the action, also knows the item that it has found.

What space managers, policies and files say is the input of an action, and may be anything.
An allocation runs its evictions itself; `evictMem` and `evictDisk` are such passes of other
threads.
-/

namespace StarCache

open MachineInt

namespace Concurrent

structure Shared where
  /-- `_access_index`. -/
  index : CacheId → Option ItemRef
  items : ItemRef → CacheItem
  itemCount : Nat

/-- What is asked of the rest of the cache. -/
inductive Question
  | busy
  | itemRoom
  | monotonicTime
  | alignIobuf
  /-- The segments of a new block in memory. -/
  | segments
  | diskBlock
  | memEvicted
  | diskEvicted
  | checkWrite
  | flushAdmission
  /-- `_continuous_segments_size` is that of the block. -/
  | whole
  | diskWrite
deriving DecidableEq

@[reducible] def Question.Answer : Question → Type
  | .busy | .itemRoom | .alignIobuf | .whole => Bool
  | .monotonicTime => Nat
  | .segments => Option (List (Option SegmentRef))
  | .diskBlock => Option BlockId
  | .memEvicted => List BlockKey
  | .diskEvicted => List CacheId
  | .checkWrite => BlockLocation
  | .flushAdmission => BlockAdmission
  | .diskWrite => Status

abbrev Input := (q : Question) → q.Answer

/-- Nothing is granted, and nothing is evicted. -/
def Input.refusing : Input
  | .busy => true
  | .itemRoom | .alignIobuf | .whole => false
  | .monotonicTime => 0
  | .segments | .diskBlock => none
  | .memEvicted | .diskEvicted => []
  | .checkWrite => .none
  | .flushAdmission => .skip
  | .diskWrite => { errorCode := EIO, errorStr := "write failed" }

/-- Everything is granted, and blocks go to the disk block `id`. -/
def Input.granting (id : BlockId) : Input
  | .busy => false
  | .itemRoom | .alignIobuf | .whole => true
  | .monotonicTime => 0
  | .segments => some []
  | .diskBlock => some id
  | .memEvicted | .diskEvicted => []
  | .checkWrite => .disk
  | .flushAdmission => .flush
  | .diskWrite => .OK

inductive Atom
  | find (id : CacheId)
  | insert (id : CacheId) (r : ItemRef)
  | remove (id : CacheId) (r : ItemRef)
  | setReleased (id : CacheId) (r : ItemRef)
  | releaseIfEmpty (id : CacheId) (r : ItemRef)
  | isReleased (r : ItemRef)
  /-- The key and the size of an item, which stay as they are. -/
  | getItem (r : ItemRef)
  | clearDiskBlocks (r : ItemRef)
  | getBlock (r : ItemRef) (i : Nat)
  | clearBlock (r : ItemRef) (i : Nat)
  | setMemBlock (r : ItemRef) (i : Nat) (block : Option MemBlockItem)
  | setDiskBlock (r : ItemRef) (i : Nat) (id : BlockId)
  /-- The look at an evicted block; answers whether it is to be flushed. -/
  | dropMemBlock (r : ItemRef) (i : Nat)
  | newCacheItem (cacheKey : CacheKey) (size ttlSeconds : Nat)
  | ask (q : Question)
  /-- Undefined behaviour, or an endless loop. -/
  | undefined
deriving DecidableEq

@[reducible] def Atom.Answer : Atom → Type
  | .find _ => Option ItemRef
  | .setReleased _ _ | .releaseIfEmpty _ _ | .isReleased _ | .dropMemBlock _ _ => Bool
  | .getItem _ => CacheKey × Nat
  | .getBlock _ _ => BlockItem
  | .newCacheItem _ _ _ => Option ItemRef
  | .ask q => q.Answer
  | .undefined => Empty
  | _ => Unit

def Shared.updateItem (s : Shared) (r : ItemRef) (item : CacheItem) : Shared :=
  { s with items := Function.update s.items r item }

/-- The work on an evicted block: there is none, it has to be flushed, or it is on disk as it
is and leaves the memory. -/
def dropMemBlock (item : CacheItem) (i : Nat) : Bool × CacheItem :=
  match item.blocks[i]? with
  | some { memBlockItem := some block, diskBlockItem } =>
      if block.state = .dirty ∨ diskBlockItem = none then (true, item)
      else (false, item.updateBlock i fun b => { b with memBlockItem := none })
  | _ => (false, item)

/-- What an action does. -/
def effect (flags : Flags) : (e : Atom) → Input → Shared → Option (e.Answer × Shared)
  | .find id, _, s => some (s.index id, s)
  | .insert id r, _, s => some ((), { s with index := Function.update s.index id (some r) })
  | .remove id _, _, s => some ((), { s with index := Function.update s.index id none })
  | .setReleased _ r, _, s =>
      let result := (s.items r).setReleased true
      some (result.1, s.updateItem r result.2)
  | .releaseIfEmpty _ r, _, s =>
      let result := (s.items r).releaseIfEmpty
      some (result.1, s.updateItem r result.2)
  | .isReleased r, _, s => some ((s.items r).released, s)
  | .getItem r, _, s => some (((s.items r).cacheKey, (s.items r).size), s)
  | .clearDiskBlocks r, _, s => some ((), s.updateItem r (s.items r).clearDiskBlocks)
  | .getBlock r i, _, s => (s.items r).blocks[i]?.map fun b => (b, s)
  | .clearBlock r i, _, s =>
      some ((), s.updateItem r ((s.items r).updateBlock i fun _ => {}))
  | .setMemBlock r i block, _, s =>
      some ((), s.updateItem r ((s.items r).updateBlock i fun b =>
        { b with memBlockItem := block }))
  | .setDiskBlock r i id, _, s =>
      some ((), s.updateItem r ((s.items r).updateBlock i fun b =>
        { b with diskBlockItem := some id }))
  | .dropMemBlock r i, _, s =>
      let result := dropMemBlock (s.items r) i
      some (result.1, s.updateItem r result.2)
  | .newCacheItem cacheKey size ttlSeconds, input, s =>
      if input .itemRoom then
        let expireTime := u64 (input .monotonicTime + ttlSeconds : Nat)
        some (some s.itemCount, { s with
          items := Function.update s.items s.itemCount (.new flags cacheKey size expireTime)
          itemCount := s.itemCount + 1 })
      else some (none, s)
  | .ask q, input, s => some (input q, s)
  | .undefined, _, _ => none

abbrev Op := Thread Atom Atom.Answer

open Thread (forEach forUntil retry when)

/-- A single action. -/
abbrev perform (e : Atom) : Op e.Answer := Thread.perform e

def undefined {α : Type} : Op α := .act .undefined Empty.elim

variable (pf : Platform)

/-- `_remove_cache_item`. -/
def removeCacheItem (id : CacheId) (r : ItemRef) : Op Unit := do
  perform (.remove id r)
  let item ← perform (.getItem r)
  let blockCount := blockCountOf pf.flags item.2
  forEach (List.range (min blockCount 4294967296)) fun i => perform (.clearBlock r i)
  when (4294967296 ≤ blockCount) undefined

/-! ## Disk eviction -/

/-- `_process_evicted_disk_items`. -/
def processEvictedDiskItems : List CacheId → Op Unit
  | [] => pure ()
  | id :: rest => do
      match ← perform (.find id) with
      | none => pure ()
      | some r => do
          perform (.clearDiskBlocks r)
          let released ← perform (.releaseIfEmpty id r)
          when released (removeCacheItem pf id r)
          processEvictedDiskItems rest

/-- `_evict_for_disk_block`. -/
def evictForDiskBlock : Op Unit := do
  let evicted ← perform (.ask .diskEvicted)
  processEvictedDiskItems pf evicted

/-- `_alloc_disk_block`. -/
def allocDiskBlock : Op (Option BlockId) :=
  retry (perform (.ask .diskBlock)) (evictForDiskBlock pf) pf.flags.maxRetryWhenAllocate

/-! ## Flush -/

/-- A block written to disk becomes visible. -/
def writeVisible (r : ItemRef) (i : Nat) (id : BlockId) : Op Status := do
  let st ← perform (.ask .diskWrite)
  if st.ok then do
    perform (.setDiskBlock r i id)
    pure st
  else pure st

/-- The write of `_flush_block_segments`, into the disk block that there is or a new one. -/
def flushToDisk (r : ItemRef) (i : Nat) : Option BlockId → Op Status
  | some id => writeVisible r i id
  | none => do
      match ← allocDiskBlock pf with
      | none => pure ⟨E_INTERNAL, "allocate disk block failed"⟩
      | some id => writeVisible r i id

/-- `_flush_block_segments`. -/
def flushBlockSegments (r : ItemRef) (i : Nat) : Op Status := do
  let block ← perform (.getBlock r i)
  let st ← flushToDisk pf r i block.diskBlockItem
  perform (.setMemBlock r i none)
  pure st

/-- The end of `_flush_block` for a block that is not to be kept. -/
def deleteBlock (r : ItemRef) (key : BlockKey) : Op Unit := do
  perform (.clearBlock r key.blockIndex)
  let released ← perform (.releaseIfEmpty key.cacheId r)
  when released (removeCacheItem pf key.cacheId r)

/-- `_flush_block`. -/
def flushBlock (r : ItemRef) (key : BlockKey) : Op Unit := do
  let released ← perform (.isReleased r)
  if released then pure ()
  else do
    let block ← perform (.getBlock r key.blockIndex)
    if block.memBlockItem.isNone then pure ()
    else
      match ← perform (.ask .flushAdmission) with
      | .skip => pure ()
      | .delete => deleteBlock pf r key
      | .flush => do
          let block ← perform (.getBlock r key.blockIndex)
          let whole ← perform (.ask .whole)
          if block.diskBlockItem.isNone && !whole then deleteBlock pf r key
          else do
            let _ ← flushBlockSegments pf r key.blockIndex
            pure ()

/-! ## Memory eviction -/

/-- The body of the loop of `_process_evicted_mem_blocks`. -/
def processEvictedMemBlock (key : BlockKey) : Op Unit := do
  match ← perform (.find key.cacheId) with
  | none => pure ()
  | some r => do
      let item ← perform (.getItem r)
      if blockCountOf pf.flags item.2 ≤ key.blockIndex then pure ()
      else do
        let flush ← perform (.dropMemBlock r key.blockIndex)
        when flush (flushBlock pf r key)

/-- `_process_evicted_mem_blocks`. -/
def processEvictedMemBlocks (evicted : List BlockKey) : Op Unit :=
  forEach evicted (processEvictedMemBlock pf)

/-- `_evict_mem_block` and `_evict_for_mem_block`. -/
def evictMemBlock : Op Unit := do
  let evicted ← perform (.ask .memEvicted)
  processEvictedMemBlocks pf evicted

/-- `_alloc_cache_item`. -/
def allocCacheItem (cacheKey : CacheKey) (size ttlSeconds : Nat) : Op (Option ItemRef) :=
  retry (perform (.newCacheItem cacheKey size ttlSeconds)) (evictMemBlock pf)
    pf.flags.maxRetryWhenAllocate

/-- `_alloc_block_segment`. -/
def allocBlockSegment : Op (Option (List (Option SegmentRef))) :=
  retry (perform (.ask .segments)) (evictMemBlock pf) pf.flags.maxRetryWhenAllocate

/-! ## The public operations -/

/-- `_write_block`. -/
def writeBlock (r : ItemRef) (i : Nat) : Op Status := do
  match ← perform (.ask .checkWrite) with
  | .mem => do
      let aligned ← perform (.ask .alignIobuf)
      if !pf.flags.enableOsPageCache && !aligned then
        pure ⟨ENOMEM, "align io buffer failed"⟩
      else
        match ← allocBlockSegment pf with
        | none => pure ⟨E_INTERNAL, "allocate segment failed"⟩
        | some slices => do
            perform (.setMemBlock r i (some ⟨slices, .dirty⟩))
            pure .OK
  | .disk => do
      match ← allocDiskBlock pf with
      | none => pure ⟨E_INTERNAL, "allocate disk block failed"⟩
      | some id => writeVisible r i id
  | .none => pure ⟨E_INTERNAL, "write block is rejected for overload"⟩

/-- `_write_cache_item`. -/
def writeCacheItem (id : CacheId) (cacheKey : CacheKey) (buf : IOBuf)
    (options : Option WriteOptions) : Op Status := do
  match ← allocCacheItem pf cacheKey buf.length ((options.map (·.ttlSeconds)).getD 0) with
  | none => undefined
  | some r => do
      let endBlockIndex := u32 ((buf.length - 1) / pf.flags.blockSize : Nat)
      let st ← forUntil (fun st => !st.ok) .OK (List.range (endBlockIndex + 1)) (writeBlock pf r)
      if st.ok then do
        when (endBlockIndex = 4294967295) undefined
        perform (.insert id r)
        pure .OK
      else pure st

def set (cacheKey : CacheKey) (buf : IOBuf) (options : Option WriteOptions) : Op Status :=
  if buf.isEmpty then pure ⟨E_INTERNAL, "cache value should not be empty"⟩
  else do
    let busy ← perform (.ask .busy)
    if busy then pure ⟨EBUSY, "the cache system is busy now"⟩
    else do
      let id := pf.cachekey2id cacheKey
      match ← perform (.find id) with
      | none => writeCacheItem pf id cacheKey buf options
      | some r =>
          if options.all (·.overwrite) then do
            removeCacheItem pf id r
            writeCacheItem pf id cacheKey buf options
          else pure ⟨EEXIST, "the cache object already exists"⟩

def remove (cacheKey : CacheKey) : Op Status := do
  let id := pf.cachekey2id cacheKey
  match ← perform (.find id) with
  | none => pure ⟨ENOENT, "The target not found"⟩
  | some r => do
      let item ← perform (.getItem r)
      if item.1 ≠ cacheKey then pure ⟨ENOENT, "The target not found"⟩
      else do
        let released ← perform (.setReleased id r)
        if released then do
          removeCacheItem pf id r
          pure .OK
        else pure .OK

inductive Call
  | set (cacheKey : CacheKey) (buf : IOBuf) (options : Option WriteOptions)
  | remove (cacheKey : CacheKey)
  | evictMem (keys : List BlockKey)
  | evictDisk (ids : List CacheId)
deriving DecidableEq

/-- What a call runs. The result names the call; an eviction pass has no status. -/
def Call.thread (c : Call) : Op (Call × Option Status) :=
  match c with
  | .set cacheKey buf options => do
      let st ← Concurrent.set pf cacheKey buf options
      pure (c, some st)
  | .remove cacheKey => do
      let st ← Concurrent.remove pf cacheKey
      pure (c, some st)
  | .evictMem keys => do
      processEvictedMemBlocks pf keys
      pure (c, none)
  | .evictDisk ids => do
      processEvictedDiskItems pf ids
      pure (c, none)

/-- An empty cache. -/
def Shared.init : Shared := ⟨fun _ => none, fun _ => default, 0⟩

/-- A state of the cache with the operations in flight. -/
abbrev Flight := Pool Shared Atom Atom.Answer (Call × Option Status)

abbrev Move := Label Call Atom Atom.Answer (Call × Option Status)

/-- A step of any operation in flight, or a new call. -/
abbrev Step : Move → Flight → Flight → Prop := Pool.Step (fun _ => effect pf.flags) (Call.thread pf)

abbrev Run : List (Flight × Move) → Flight → Prop :=
  Pool.Run (fun _ => effect pf.flags) (Call.thread pf) Shared.init

end Concurrent

end StarCache
