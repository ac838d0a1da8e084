import Mathlib.Data.Rat.Init

/-!
# Flags

The flags of `common/config.cpp`. A block, slice or alignment size of zero makes
every public call divide by zero, so these three carry their positivity.
-/

namespace StarCache

structure Flags where
  blockSize : Nat
  sliceSize : Nat
  blockFileSize : Nat
  enableDiskChecksum : Bool
  maxConcurrentWrites : Nat
  memEvictTimes : Nat
  diskEvictTimes : Nat
  maxRetryWhenAllocate : Nat
  admissionMaxCheckSize : Nat
  admissionFlushProbability : Rat
  admissionDeleteProbability : Rat
  allocMemThreshold : Nat
  promotionMemThreshold : Nat
  promotionProbalility : Nat
  evictTouchMemProbalility : Nat
  evictTouchDiskProbalility : Nat
  enableOsPageCache : Bool
  ioAlignUnitSize : Nat
  lruContainerShardBits : Nat
  blockSize_pos : 0 < blockSize
  sliceSize_pos : 0 < sliceSize
  ioAlignUnitSize_pos : 0 < ioAlignUnitSize

/-- The values `config.cpp` defines. -/
def Flags.default : Flags where
  blockSize := 1048576
  sliceSize := 65536
  blockFileSize := 10737418240
  enableDiskChecksum := true
  maxConcurrentWrites := 1500000
  memEvictTimes := 2
  diskEvictTimes := 2
  maxRetryWhenAllocate := 10
  admissionMaxCheckSize := 65536
  admissionFlushProbability := 1
  admissionDeleteProbability := 1
  allocMemThreshold := 90
  promotionMemThreshold := 80
  promotionProbalility := 30
  evictTouchMemProbalility := 30
  evictTouchDiskProbalility := 30
  enableOsPageCache := false
  ioAlignUnitSize := 4096
  lruContainerShardBits := 5
  blockSize_pos := by decide
  sliceSize_pos := by decide
  ioAlignUnitSize_pos := by decide

/-- Blocks of two slices of two bytes, and no reserve anywhere. -/
def Flags.small : Flags where
  blockSize := 4
  sliceSize := 2
  blockFileSize := 8
  enableDiskChecksum := true
  maxConcurrentWrites := 4
  memEvictTimes := 1
  diskEvictTimes := 1
  maxRetryWhenAllocate := 3
  admissionMaxCheckSize := 1
  admissionFlushProbability := 1
  admissionDeleteProbability := 1
  allocMemThreshold := 100
  promotionMemThreshold := 100
  promotionProbalility := 100
  evictTouchMemProbalility := 0
  evictTouchDiskProbalility := 0
  enableOsPageCache := true
  ioAlignUnitSize := 1
  lruContainerShardBits := 0
  blockSize_pos := by decide
  sliceSize_pos := by decide
  ioAlignUnitSize_pos := by decide

end StarCache
