/-!
# Types of the public interface

Byte buffers are lists of bytes: `butil::IOBuf` is used only for its content and
its length. Block indexes and sizes are naturals; where the program stores them
in 32 bits the conversion is written out at that place.
-/

namespace StarCache

abbrev IOBuf := List UInt8
abbrev CacheId := UInt64
/-- The bytes of a `std::string`. -/
abbrev CacheKey := List UInt8

structure BlockId where
  dirIndex : Nat
  blockIndex : Nat
deriving DecidableEq, Repr

structure BlockKey where
  cacheId : CacheId
  blockIndex : Nat
deriving DecidableEq, Repr, Inhabited

structure DirSpace where
  path : String
  quotaBytes : Nat

/-- The options of `init`. A directory is named by a `uint8_t`, and `add_dir`
asserts that this name is the position of the directory. -/
structure CacheOptions where
  memQuotaBytes : Nat
  diskDirSpaces : List DirSpace
  dirs_le : diskDirSpaces.length ≤ 256

/-- Options with a single directory. -/
def CacheOptions.oneDir (memQuotaBytes quotaBytes : Nat) : CacheOptions :=
  ⟨memQuotaBytes, [⟨"/cache", quotaBytes⟩], by simp⟩

inductive WriteMode
  | writeBack
  | writeThrough
deriving DecidableEq, Repr

structure WriteOptions where
  ttlSeconds : Nat := 0
  pinned : Bool := false
  overwrite : Bool := true
  mode : WriteMode := .writeBack
deriving DecidableEq, Repr

inductive ReadMode
  | readBack
  | readThrough
deriving DecidableEq, Repr

structure ReadOptions where
  mode : ReadMode := .readBack
deriving DecidableEq, Repr

/-- A `butil::Status`: error code 0 is success. -/
structure Status where
  errorCode : Int
  errorStr : String
deriving DecidableEq, Repr

namespace Status

def OK : Status := ⟨0, ""⟩

/-- `Status::ok()`. -/
def ok (st : Status) : Bool := st.errorCode == 0

@[simp] theorem ok_OK : OK.ok = true := rfl

end Status

def ENOENT : Int := 2
def EIO : Int := 5
def ENOMEM : Int := 12
def EBUSY : Int := 16
def EEXIST : Int := 17
def EINVAL : Int := 22
def E_INTERNAL : Int := 100001

inductive BlockLocation
  | none
  | mem
  | disk
deriving DecidableEq, Repr

inductive BlockAdmission
  | flush
  | skip
  | delete
deriving DecidableEq, Repr

end StarCache
