import StarCache.BlockItem

/-!
# The platform

What the program takes from outside: its flags, the hash and checksum functions,
the sizes of its structures, and an environment that answers each call of the
operating system or of the random generator. Answers are indexed by a clock that
advances with every question, so an environment is one arbitrary history.
-/

namespace StarCache

/-- The error number of a failed system call. -/
structure Errno where
  code : Int
  code_ne : code ≠ 0

structure Env where
  monotonicTime : Nat → Nat
  /-- `fast_rand_less_than(range)`. -/
  fastRandLessThan : Nat → Nat → Nat
  /-- Whether `posix_memalign` succeeds. -/
  posixMemalign : Nat → Bool
  /-- Whether a buffer is one memory block that is aligned already. -/
  isAligned : Nat → Bool
  /-- The number of bytes a write of so many bytes transfers. -/
  pwrite : Nat → Nat → Except Errno Nat
  /-- The number of bytes a read of so many bytes transfers. -/
  pread : Nat → Nat → Except Errno Nat
  /-- What `errno` holds when the last call has not failed. -/
  errno : Nat → Int
  /-- What fresh memory holds. -/
  freshBytes : Nat → Nat → UInt8
  freshWords : Nat → Nat → UInt32

structure Platform where
  flags : Flags
  env : Env
  cachekey2id : CacheKey → CacheId
  /-- The hash of a block key in the eviction component. The padding bytes of the
  key are taken to be equal. -/
  blockKeyHash : BlockKey → Nat
  cacheIdHash : CacheId → Nat
  /-- `crc32c::Extend` over all bytes of a buffer. -/
  crc32c : IOBuf → UInt32
  sizeofCacheItem : Nat
  sizeofBlockItem : Nat
  sizeofBlockSegment : Nat

/-- Every system call succeeds and transfers everything. -/
def Env.reliable : Env where
  monotonicTime _ := 0
  fastRandLessThan _ _ := 0
  posixMemalign _ := true
  isAligned _ := true
  pwrite _ size := .ok size
  pread _ size := .ok size
  errno _ := 0
  freshBytes _ _ := 0
  freshWords _ _ := 0

/-- The write at clock `n` fails. -/
def Env.failingWrite (n : Nat) : Env :=
  { Env.reliable with
    pwrite := fun clock size => if clock = n then .error ⟨5, by decide⟩ else .ok size }

/-- Structures without a size, and the simplest hash functions. -/
def Platform.simple (flags : Flags) (env : Env) : Platform where
  flags
  env
  cachekey2id cacheKey := (cacheKey.headD 0).toUInt64
  blockKeyHash key := key.blockIndex
  cacheIdHash id := id.toNat
  crc32c buf := buf.foldl (fun sum byte => sum * 31 + byte.toUInt32) 7
  sizeofCacheItem := 0
  sizeofBlockItem := 0
  sizeofBlockSegment := 0

end StarCache
