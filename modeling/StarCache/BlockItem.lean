import StarCache.AuxFuncs

/-!
# Blocks

A block is in memory, on disk, both or neither. Segments are shared objects,
named by `SegmentRef`; the checksums of a disk block are kept with the other
shared objects, under the id of the block.
-/

namespace StarCache

open MachineInt

inductive BlockState
  | clean
  | dirty
deriving DecidableEq, Repr

structure BlockSegment where
  offset : Nat
  size : Nat
  buf : IOBuf
deriving Inhabited

/-- A `BlockSegmentPtr`. -/
abbrev SegmentRef := Nat

structure MemBlockItem where
  slices : List (Option SegmentRef)
  state : BlockState
deriving DecidableEq

namespace MemBlockItem

def new (flags : Flags) (state : BlockState) : MemBlockItem :=
  ⟨List.replicate (blockSliceCount flags) none, state⟩

/-- The segments of a run of slices, neighbours merged. -/
def collectSegments (acc : List SegmentRef) : Option SegmentRef → List SegmentRef
  | none => acc
  | some g => if acc.getLast? = some g then acc else acc ++ [g]

def listSegments (block : MemBlockItem) : List SegmentRef :=
  block.slices.foldl collectSegments []

/-- The slices with indexes from `start` to `stop` set to `g`. -/
def fillSlices (slices : List (Option SegmentRef)) (start stop : Int) (g : SegmentRef) :
    List (Option SegmentRef) :=
  slices.mapIdx fun i x => if start ≤ i ∧ i ≤ stop then some g else x

/-- The loop of `MemCache::set_block_segment`; `none` is a write outside the array. -/
def setBlockSegment (block : MemBlockItem) (start stop : Int) (g : SegmentRef) :
    Option MemBlockItem :=
  if stop < start then some block
  else if 0 ≤ start ∧ stop < block.slices.length then
    some { block with slices := fillSlices block.slices start stop g }
  else none

end MemBlockItem

/-- A disk block item is known by the id of its block. -/
structure BlockItem where
  memBlockItem : Option MemBlockItem := none
  diskBlockItem : Option BlockId := none

namespace BlockItem

def isEmpty (block : BlockItem) : Bool :=
  block.memBlockItem.isNone && block.diskBlockItem.isNone

end BlockItem

end StarCache
