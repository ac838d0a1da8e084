import StarCache.BlockItem

/-!
# Cache items

An item owns one `BlockItem` for each block of its object. `_state` has two
bits, pinned and released.
-/

namespace StarCache

open MachineInt

/-- A `CacheItemPtr`. -/
abbrev ItemRef := Nat

structure CacheItem where
  cacheKey : CacheKey
  blocks : List BlockItem
  size : Nat
  expireTime : Nat
  pinned : Bool := false
  released : Bool := false
deriving Inhabited

def blockCountOf (flags : Flags) (size : Nat) : Nat :=
  if size = 0 then 0 else (size - 1) / flags.blockSize + 1

namespace CacheItem

def new (flags : Flags) (cacheKey : CacheKey) (size expireTime : Nat) : CacheItem where
  cacheKey
  blocks := List.replicate (blockCountOf flags size) {}
  size
  expireTime

def blockCount (flags : Flags) (item : CacheItem) : Nat := blockCountOf flags item.size

/-- `tail_size` is signed, but is compared with an unsigned flag. -/
def blockSize (flags : Flags) (item : CacheItem) (blockIndex : Nat) : Nat :=
  let tailSize := u64 (item.size - blockIndex * flags.blockSize)
  if tailSize < flags.blockSize then tailSize else flags.blockSize

/-- `_set_state_value(PINNED, pinned)`, which answers whether the bit changed. -/
def setPinned (item : CacheItem) (pinned : Bool) : Bool × CacheItem :=
  (item.pinned != pinned, { item with pinned })

def setReleased (item : CacheItem) (released : Bool) : Bool × CacheItem :=
  (item.released != released, { item with released })

def releaseIfEmpty (item : CacheItem) : Bool × CacheItem :=
  if item.released then (false, item)
  else if item.blocks.all (·.isEmpty) then (true, { item with released := true })
  else (false, item)

def updateBlock (item : CacheItem) (i : Nat) (f : BlockItem → BlockItem) : CacheItem :=
  { item with blocks := item.blocks.modify i f }

def clearDiskBlocks (item : CacheItem) : CacheItem :=
  { item with blocks := item.blocks.map fun b => { b with diskBlockItem := none } }

end CacheItem

end StarCache
