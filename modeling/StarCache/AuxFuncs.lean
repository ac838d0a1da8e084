import StarCache.Common.Config
import StarCache.Common.Types
import StarCache.Foundation.MachineInt

/-!
# Index arithmetic

The helpers of `aux_funcs.h`, with the `int` and `uint32_t` results they have
there, and the sizes of the arrays they index.
-/

namespace StarCache

open MachineInt

variable (flags : Flags)

def off2block (offset : Int) : Int := i32 (u64 offset / flags.blockSize : Nat)

def blockLower (blockIndex : Int) : Nat := u32 (blockIndex * flags.blockSize)

def off2slice (offset : Int) : Int := i32 (u64 offset / flags.sliceSize : Nat)

def sliceLower (sliceIndex : Int) : Nat := u32 (sliceIndex * flags.sliceSize)

def sliceUpper (sliceIndex : Int) : Nat := u32 ((sliceIndex + 1) * flags.sliceSize - 1)

def roundUp (value factor : Nat) : Nat := (value + (factor - 1)) / factor * factor

def blockSliceCount : Nat := u32 (flags.blockSize / flags.sliceSize : Nat)

def fileBlockCount : Nat := u32 (flags.blockFileSize / flags.blockSize : Nat)

/-- `IOBuf::append_to`: the `size` bytes from position `pos`, as far as they
exist. -/
def IOBuf.appendTo (buf : IOBuf) (size pos : Nat) : IOBuf := (buf.drop pos).take size

end StarCache
