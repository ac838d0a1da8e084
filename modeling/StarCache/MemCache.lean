import StarCache.State

/-!
# The memory cache

Allocation of items and segments against the memory quota, and the slice map of
a memory block.
-/

namespace StarCache

open Prog MachineInt

namespace MemCache

variable (pf : Platform)

def newCacheItem (cacheKey : CacheKey) (size expireTime : Nat) (urgent : Bool) :
    Prog State (Option ItemRef) := modifyGet fun s =>
  let r := s.memSpace.incMem pf.flags (itemCharge pf cacheKey size) urgent
  if r.1 then
    (some s.itemCount, { s with
      memSpace := r.2
      items := Function.update s.items s.itemCount (.new pf.flags cacheKey size expireTime)
      itemCount := s.itemCount + 1
      liveItems := s.itemCount :: s.liveItems })
  else (none, { s with memSpace := r.2 })

def newBlockSegment (offset size : Nat) (buf : IOBuf) (urgent : Bool) :
    Prog State (Option SegmentRef) := modifyGet fun s =>
  let r := s.memSpace.incMem pf.flags (segmentCharge pf buf) urgent
  if r.1 then
    (some s.segmentCount, { s with
      memSpace := r.2
      segments := Function.update s.segments s.segmentCount ⟨offset, size, buf⟩
      segmentCount := s.segmentCount + 1
      liveSegments := s.segmentCount :: s.liveSegments })
  else (none, { s with memSpace := r.2 })

/-- One segment of `write_block`. -/
def writeSegment (flags : Flags) (segments : SegmentRef → BlockSegment) (block : MemBlockItem)
    (g : SegmentRef) : Option MemBlockItem :=
  let seg := segments g
  if seg.buf.length = 0 then some block
  else block.setBlockSegment (off2slice flags seg.offset)
    (off2slice flags (u32 (seg.offset + seg.size - 1))) g

def writeBlock (block : MemBlockItem) (refs : List SegmentRef) : Prog State MemBlockItem := do
  let s ← read
  deref (refs.foldlM (writeSegment pf.flags s.segments) block)

/-- The variables of the loop of `read_block`. -/
structure Cursor where
  curSegment : Option SegmentRef
  segmentOff : Int
  size : Nat
  segments : List BlockSegment

/-- The cut of `length` bytes that ends the current segment. -/
def Cursor.cut (segments : SegmentRef → BlockSegment) (c : Cursor) (length : Nat) :
    List BlockSegment :=
  match c.curSegment with
  | none => c.segments
  | some g =>
      let seg := segments g
      let buf := IOBuf.appendTo seg.buf length (u32 (c.segmentOff - seg.offset))
      c.segments ++ [⟨u32 c.segmentOff, u32 buf.length, buf⟩]

def readSlice (flags : Flags) (segments : SegmentRef → BlockSegment)
    (slices : List (Option SegmentRef)) (c : Cursor) (index : Nat) : Option Cursor :=
  match slices[index]? with
  | none => none
  | some x =>
      if x = c.curSegment then some c
      else
        let length := u64 (sliceLower flags index - c.segmentOff)
        some {
          curSegment := x
          segmentOff := sliceLower flags index
          size := u64 (c.size - length)
          segments := c.cut segments length }

def readSegments (flags : Flags) (segments : SegmentRef → BlockSegment)
    (slices : List (Option SegmentRef)) (offset : Int) (size : Nat) :
    Option (List BlockSegment) :=
  let startSliceIndex := off2slice flags offset
  let endSliceIndex := off2slice flags (offset + size - 1)
  if startSliceIndex < 0 then none
  else
    match slices[startSliceIndex.toNat]? with
    | none => none
    | some x =>
        let indexes := List.range' (startSliceIndex.toNat + 1) (endSliceIndex - startSliceIndex).toNat
        match indexes.foldlM (readSlice flags segments slices) ⟨x, offset, size, []⟩ with
        | none => none
        | some c => some (c.cut segments c.size)

def evictTrack (key : BlockKey) (size : Nat) : Prog State Unit := do
  modify fun s => { s with memTracker := s.memTracker.add pf.blockKeyHash key size }
  emit (.memTrack key)

def evictUntrack (key : BlockKey) : Prog State Unit :=
  modify fun s => { s with memTracker := s.memTracker.remove pf.blockKeyHash key }

def evictTouch (key : BlockKey) (force : Bool) : Prog State (Option EvictionHandle) := do
  let n ← tick
  if force || decide (pf.env.fastRandLessThan n 100 < pf.flags.evictTouchMemProbalility) then
    modifyGet fun s =>
      let r := s.memTracker.touch pf.blockKeyHash key
      (r.1, { s with memTracker := r.2, memHandles := r.1.toList ++ s.memHandles })
  else pure none

/-- The end of a handle. -/
def evictRelease (h : Option EvictionHandle) : Prog State Unit := modify fun s =>
  { s with
    memTracker := s.memTracker.releaseHandle h
    memHandles := h.toList.foldl List.erase s.memHandles }

def evict (size : Nat) : Prog State (List BlockKey) := do
  let keys ← modifyGet fun s =>
    let r := s.memTracker.evict size
    (r.1, { s with memTracker := r.2 })
  emit (.memEvict keys)
  pure keys

def evictFor (key : BlockKey) (size : Nat) : Prog State (List BlockKey) := do
  let keys ← modifyGet fun s =>
    let r := s.memTracker.evictFor pf.blockKeyHash key size
    (r.1, { s with memTracker := r.2 })
  emit (.memEvict keys)
  pure keys

/-- The read loop answers at once for a null block or an empty range. -/
def readBlock (key : BlockKey) (block : Option MemBlockItem) (offset : Int) (size : Nat) :
    Prog State (List BlockSegment) :=
  match block with
  | none => pure []
  | some block =>
      if size = 0 then pure []
      else do
        let handle ← evictTouch pf key false
        evictRelease handle
        let s ← read
        deref (readSegments pf.flags s.segments block.slices offset size)

end MemCache

end StarCache
