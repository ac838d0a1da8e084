import StarCache.Impl.Evict

/-!
# Reads and promotion

`_read_cache_item` aligns the range to slices and walks over the blocks;
`_read_block` merges memory segments with disk reads and hands what it read from
disk to promotion.
-/

namespace StarCache

open Prog MachineInt

namespace StarCacheImpl

variable (rt : Runtime)

/-! ## Promotion -/

/-- The segments for which memory could be allocated, each kept until the end of
the scope. -/
def allocSegments (key : BlockKey) : List BlockSegment → Prog State (List SegmentRef)
  | [] => pure []
  | seg :: rest => do
      match ← allocBlockSegment rt key seg.offset seg.size seg.buf with
      | none => allocSegments key rest
      | some g => do
          hold (.segment g)
          let refs ← allocSegments key rest
          pure (g :: refs)

/-- `_promote_block_segments` with the eviction handle of the block taken. -/
def promoteTouched (r : ItemRef) (key : BlockKey) (segs : List BlockSegment) (tracked : Bool) :
    Prog State Unit := do
  let refs ← allocSegments rt key segs
  if refs.isEmpty then pure ()
  else do
    lock true key
    let block ← getBlock r key.blockIndex
    match block.memBlockItem with
    | none => do
        unlock true key
        let memBlock ← MemCache.writeBlock rt.toPlatform (.new rt.flags .clean) refs
        lock true key
        setMemBlock rt.toPlatform r key.blockIndex (some memBlock)
        unlock true key
    | some memBlock => do
        let memBlock ← MemCache.writeBlock rt.toPlatform memBlock refs
        setMemBlock rt.toPlatform r key.blockIndex (some memBlock)
        unlock true key
    let s ← read
    when (!tracked) (MemCache.evictTrack rt.toPlatform key
      ((s.items r).blockSize rt.flags key.blockIndex))

/-- `_promote_block_segments`. -/
def promoteBlockSegments (r : ItemRef) (key : BlockKey) (segs : List BlockSegment) :
    Prog State Unit := do
  let handle ← MemCache.evictTouch rt.toPlatform key true
  scope rt.toPlatform (promoteTouched rt r key segs handle.isSome)
  MemCache.evictRelease handle

/-! ## One block -/

/-- The variables of the loop of `_read_block`. -/
structure ReadProgress where
  cursor : Int
  buf : IOBuf := []
  diskSegments : List BlockSegment := []
  holeExist : Bool := false

/-- Read the `size` bytes at the cursor from the disk block. -/
def readGap (cacheId : CacheId) (id : BlockId) (p : ReadProgress) (size : Nat) :
    Prog State (Status × ReadProgress) := do
  let result ← DiskCache.readBlock rt.toPlatform cacheId id (u32 p.cursor) size
  if result.1.ok then
    pure (.OK, { p with
      buf := p.buf ++ IOBuf.appendTo result.2 size 0
      diskSegments := p.diskSegments ++ [⟨u32 p.cursor, size, result.2⟩] })
  else pure (result.1, p)

def ReadProgress.append (p : ReadProgress) (seg : BlockSegment) : ReadProgress :=
  { p with buf := p.buf ++ seg.buf, cursor := seg.offset + seg.buf.length }

/-- The loop over the memory segments. -/
def mergeSegments (cacheId : CacheId) (disk : Option BlockId) :
    List BlockSegment → ReadProgress → Prog State (Status × ReadProgress)
  | [], p => pure (.OK, p)
  | seg :: rest, p =>
      if p.cursor < seg.offset then
        match disk with
        | none => pure (.OK, { p with holeExist := true })
        | some id => do
            let result ← readGap rt cacheId id p (u32 (seg.offset - p.cursor))
            if result.1.ok then mergeSegments cacheId disk rest (result.2.append seg)
            else pure result
      else mergeSegments cacheId disk rest (p.append seg)

/-- What is still missing at the end of the range. -/
def readRest (cacheId : CacheId) (disk : Option BlockId) (size : Nat) (p : ReadProgress) :
    Prog State (Status × ReadProgress) :=
  match disk with
  | none => pure (.OK, p)
  | some id =>
      if p.buf.length < size then readGap rt cacheId id p (u32 (size - p.buf.length))
      else pure (.OK, p)

/-- The part of `_read_block` under the shared lock. -/
def readLocked (key : BlockKey) (block : BlockItem) (offset : Int) (size : Nat) :
    Prog State (Status × ReadProgress) := do
  let segments ← MemCache.readBlock rt.toPlatform key block.memBlockItem offset size
  let merged ← mergeSegments rt key.cacheId block.diskBlockItem segments { cursor := offset }
  if merged.1.ok then readRest rt key.cacheId block.diskBlockItem size merged.2
  else pure merged

/-- `_read_block`. -/
def readBlock (r : ItemRef) (key : BlockKey) (offset : Int) (size : Nat)
    (options : Option ReadOptions) : Prog State (Status × IOBuf) := scope rt.toPlatform do
  lock false key
  let block ← getBlock r key.blockIndex
  forEach (block.memBlockItem.toList.map .memBlock ++ block.diskBlockItem.toList.map .diskBlock)
    hold
  let result ← readLocked rt key block offset size
  unlock false key
  let p := result.2
  if !result.1.ok then pure (result.1, p.buf)
  else if p.buf.length < size ∨ p.holeExist = true then
    pure (⟨ENOENT, "can not read full block from cache"⟩, p.buf)
  else do
    let n ← tick
    let s ← read
    when (!p.diskSegments.isEmpty &&
        rt.promotionPolicy.checkPromote n s (s.items r) key options)
      (promoteBlockSegments rt r key p.diskSegments)
    pure (.OK, p.buf)

/-! ## The whole range -/

/-- A part of a block. -/
structure BlockRange where
  blockIndex : Nat
  offset : Int
  size : Nat
deriving DecidableEq

/-- The range of bytes `lower` to `upper`, by blocks. -/
def blockRanges (flags : Flags) (lower upper : Nat) : List BlockRange :=
  let startBlockIndex := u32 (off2block flags lower)
  let endBlockIndex := u32 (off2block flags upper)
  (List.range' startBlockIndex (endBlockIndex + 1 - startBlockIndex)).map fun i =>
    let offInBlock : Int := if i = startBlockIndex then lower - blockLower flags i else 0
    let toRead := if i = endBlockIndex then u64 (upper - (blockLower flags i + offInBlock) + 1)
      else u64 (flags.blockSize - offInBlock)
    ⟨i, offInBlock, toRead⟩

def readBlocks (id : CacheId) (r : ItemRef) (options : Option ReadOptions) :
    List BlockRange → IOBuf → Prog State (Status × IOBuf)
  | [], buf => pure (.OK, buf)
  | range :: rest, buf => do
      let result ← readBlock rt r ⟨id, range.blockIndex⟩ range.offset range.size options
      if result.1.ok then readBlocks id r options rest (buf ++ result.2)
      else pure (result.1, buf)

/-- The size that is left of a request; all values are unsigned here. -/
def clampSize (itemSize : Nat) (offset : Int) (size : Nat) : Nat :=
  if itemSize < u64 (offset + size) then
    (if itemSize ≤ u64 offset then 0 else u64 (itemSize - offset))
  else size

/-- The byte range that is read for a request, aligned to slices. -/
def alignedRange (flags : Flags) (itemSize : Nat) (offset : Int) (size : Nat) : Nat × Nat :=
  let upper := sliceUpper flags (off2slice flags (offset + size - 1))
  (sliceLower flags (off2slice flags offset), if itemSize ≤ upper then itemSize - 1 else upper)

/-- `_read_cache_item`. -/
def readCacheItem (id : CacheId) (r : ItemRef) (offset : Int) (size : Nat)
    (options : Option ReadOptions) : Prog State (Status × IOBuf) := do
  let s ← read
  let itemSize := (s.items r).size
  let size := clampSize itemSize offset size
  if size = 0 then pure (.OK, [])
  else do
    let range := alignedRange rt.flags itemSize offset size
    let result ← readBlocks rt id r options (blockRanges rt.flags range.1 range.2) []
    if result.1.ok then do
      -- a 32-bit index does not get past the greatest one
      require (u32 (off2block rt.flags range.2) ≠ 4294967295)
      pure (.OK, (result.2.drop (u64 (offset - range.1))).take size)
    else pure result

end StarCacheImpl

end StarCache
