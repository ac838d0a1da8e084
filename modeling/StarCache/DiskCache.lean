import StarCache.State

/-!
# The disk cache

Block files, and reads and writes of segments of disk blocks with their
checksums. Only the transfer itself is left to the environment: which file and
which bytes are touched is computed as in the program.
-/

namespace StarCache

open Prog MachineInt

/-- `Status(errno, ...)`. -/
def ioError (context : String) (errno : Int) : Status := ⟨errno, context⟩

/-! ## Block files -/

/-- A place in a block file. -/
structure FilePos where
  dirIndex : Nat
  fileIndex : Nat
  offset : Nat
deriving DecidableEq

def writeBytes (files : Nat → Nat → Nat → UInt8) (pos : FilePos) (data : IOBuf) :
    Nat → Nat → Nat → UInt8 := fun d f o =>
  if d = pos.dirIndex ∧ f = pos.fileIndex ∧ pos.offset ≤ o then
    data.getD (o - pos.offset) (files d f o)
  else files d f o

def readBytes (files : Nat → Nat → Nat → UInt8) (pos : FilePos) (size : Nat) : IOBuf :=
  (List.range size).map fun i => files pos.dirIndex pos.fileIndex (pos.offset + i)

namespace BlockFile

variable (pf : Platform)

/-- `align_iobuf`: the content, padded to the alignment unit by whatever the new
memory holds. `none` is a failed allocation. -/
def alignIobuf (buf : IOBuf) : Prog State (Option IOBuf) := do
  let n ← tick
  let alignedSize := roundUp buf.length pf.flags.ioAlignUnitSize
  if pf.env.posixMemalign n && alignedSize != 0 then
    pure (some (buf ++ (List.range (alignedSize - buf.length)).map fun i =>
      pf.env.freshBytes n (buf.length + i)))
  else pure none

/-- `pwrite` and `pwritev`. -/
def transferOut (pos : FilePos) (data : IOBuf) : Prog State Status := do
  let n ← tick
  match pf.env.pwrite n data.length with
  | .error e => pure (ioError "fail to write block file" e.code)
  | .ok count => do
      modify fun s => { s with files := writeBytes s.files pos (data.take count) }
      pure .OK

def write (pos : FilePos) (buf : IOBuf) : Prog State Status := do
  let n ← tick
  if pf.flags.enableOsPageCache ||
      (pf.env.isAligned n && buf.length % pf.flags.ioAlignUnitSize == 0 && !buf.isEmpty) then
    transferOut pf pos buf
  else
    match ← alignIobuf pf buf with
    | none => pure (ioError "fail to write block file" ENOMEM)
    | some data => transferOut pf pos data

/-- The size of the buffer that a read fills. -/
def alignedSize (flags : Flags) (size : Nat) : Nat :=
  if flags.enableOsPageCache then size else roundUp size flags.ioAlignUnitSize

/-- The answer of `pread` is stored in an `int`. -/
def read (pos : FilePos) (size : Nat) : Prog State (Status × IOBuf) := do
  let n ← tick
  if !pf.flags.enableOsPageCache && !pf.env.posixMemalign n then
    pure (ioError "posix posix_memalign erro" ENOMEM, [])
  else
    match pf.env.pread n (alignedSize pf.flags size) with
    | .error e => pure (ioError "fail to read block file" e.code, [])
    | .ok count =>
        if i32 count < 0 then pure (ioError "fail to read block file" (pf.env.errno n), [])
        else do
          let s ← Prog.read
          let data := readBytes s.files pos (min count (alignedSize pf.flags size))
          pure (.OK, data ++ (List.range (alignedSize pf.flags size - data.length)).map fun i =>
            pf.env.freshBytes n (data.length + i))

end BlockFile

namespace DiskCache

variable (pf : Platform)

/-- The file and the offset of a place in a block: `get_block_file` and
`get_block_file_offset`. -/
def locate (id : BlockId) (offsetInBlock : Nat) : Prog State FilePos := do
  let s ← Prog.read
  let dir ← deref s.diskSpace.cacheDirs[id.dirIndex]?
  require (fileBlockCount pf.flags ≠ 0)
  let fileIndex := CacheDir.fileIndex pf.flags id.blockIndex
  let _ ← deref dir.blockFiles[fileIndex]?
  pure ⟨id.dirIndex, fileIndex,
    CacheDir.getBlockFileOffset pf.flags id.blockIndex offsetInBlock⟩

/-! ## Checksums -/

/-- One pass of the checksum loops: the slice, and the bytes of the segment that
belong to it. -/
structure ChecksumPiece where
  index : Int
  offset : Nat
  size : Nat

def checksumPieces (flags : Flags) (offset size : Nat) : List ChecksumPiece :=
  let sliceSize := u32 flags.sliceSize
  (List.range ((size + (sliceSize - 1)) / sliceSize)).map fun n =>
    { index := off2slice flags (offset + n * sliceSize : Nat)
      offset := n * sliceSize
      size := min sliceSize (u32 (size - n * sliceSize : Nat)) }

/-- The index is one of the checksum array. -/
def ChecksumPiece.InBounds (flags : Flags) (p : ChecksumPiece) : Prop :=
  0 ≤ p.index ∧ p.index < blockSliceCount flags

instance (flags : Flags) (p : ChecksumPiece) : Decidable (p.InBounds flags) :=
  inferInstanceAs (Decidable (_ ∧ _))

/-- The array is indexed within its bounds and the loop advances. -/
def checksumLoop (flags : Flags) (size : Nat) (pieces : List ChecksumPiece) : Prog State Unit := do
  require (size = 0 ∨ u32 flags.sliceSize ≠ 0)
  require (∀ p ∈ pieces, p.InBounds flags)

def pieceChecksum (buf : IOBuf) (p : ChecksumPiece) : UInt32 :=
  pf.crc32c (IOBuf.appendTo buf p.size p.offset)

def updateBlockChecksum (id : BlockId) (seg : BlockSegment) : Prog State Unit := do
  let pieces := checksumPieces pf.flags seg.offset seg.size
  checksumLoop pf.flags seg.size pieces
  modify fun s => { s with
    checksums := Function.update s.checksums id
      (pieces.foldl (fun sums p => Function.update sums p.index.toNat
        (pieceChecksum pf seg.buf p)) (s.checksums id)) }

def checkBlockChecksum (id : BlockId) (seg : BlockSegment) : Prog State Bool := do
  let pieces := checksumPieces pf.flags seg.offset seg.size
  checksumLoop pf.flags seg.size pieces
  let s ← Prog.read
  pure (pieces.all fun p => s.checksums id p.index.toNat == pieceChecksum pf seg.buf p)

/-! ## Eviction policy -/

def evictTrack (id : CacheId) (size : Nat) : Prog State Unit := do
  modify fun s => { s with diskTracker := s.diskTracker.add pf.cacheIdHash id size }
  emit (.diskTrack id)

def evictUntrack (id : CacheId) : Prog State Unit :=
  modify fun s => { s with diskTracker := s.diskTracker.remove pf.cacheIdHash id }

def evictTouch (id : CacheId) (force : Bool) : Prog State (Option EvictionHandle) := do
  let n ← tick
  if force || decide (pf.env.fastRandLessThan n 100 < pf.flags.evictTouchDiskProbalility) then
    modifyGet fun s =>
      let r := s.diskTracker.touch pf.cacheIdHash id
      (r.1, { s with diskTracker := r.2, diskHandles := r.1.toList ++ s.diskHandles })
  else pure none

def evictRelease (h : Option EvictionHandle) : Prog State Unit := modify fun s =>
  { s with
    diskTracker := s.diskTracker.releaseHandle h
    diskHandles := h.toList.foldl List.erase s.diskHandles }

def evictFor (id : CacheId) (size : Nat) : Prog State (List CacheId) := do
  let ids ← modifyGet fun s =>
    let r := s.diskTracker.evictFor pf.cacheIdHash id size
    (r.1, { s with diskTracker := r.2 })
  emit (.diskEvict ids)
  pure ids

/-! ## Blocks -/

def newBlockItem : Prog State (Option BlockId) := do
  match ← onDisk (DiskSpaceManager.allocBlock pf.flags) with
  | none => pure none
  | some id => do
      let n ← tick
      -- a new block item has an uninitialised checksum array
      modify fun s => { s with
        liveBlocks := id :: s.liveBlocks
        checksums := Function.update s.checksums id (pf.env.freshWords n) }
      pure (some id)

def writeBlock (id : BlockId) (seg : BlockSegment) : Prog State Status := do
  let s ← Prog.read
  if s.diskSpace.quotaBytes = 0 then pure ⟨ENOENT, "disk cache is not exist"⟩
  else if seg.offset % pf.flags.sliceSize ≠ 0 then
    pure ⟨EINVAL, "offset must be aligned by slice size"⟩
  else do
    Prog.when pf.flags.enableDiskChecksum (updateBlockChecksum pf id seg)
    let pos ← locate pf id seg.offset
    BlockFile.write pf pos seg.buf

/-- Answers the status and what the segment's buffer then holds. -/
def readBlock (cacheId : CacheId) (id : BlockId) (offset size : Nat) :
    Prog State (Status × IOBuf) := do
  let s ← Prog.read
  if s.diskSpace.quotaBytes = 0 then pure (⟨ENOENT, "disk cache is not exist"⟩, [])
  else do
    let handle ← evictTouch pf cacheId false
    evictRelease handle
    if offset % pf.flags.sliceSize ≠ 0 then
      pure (⟨EINVAL, "offset must be aligned by slice size"⟩, [])
    else do
      let pos ← locate pf id offset
      let result ← BlockFile.read pf pos size
      if !result.1.ok then pure result
      else if pf.flags.enableDiskChecksum then do
        if ← checkBlockChecksum pf id ⟨offset, size, result.2⟩ then pure (.OK, result.2)
        else pure (⟨E_INTERNAL, "fail to verify checksum for cache"⟩, result.2)
      else pure (.OK, result.2)

end DiskCache

end StarCache
