import StarCache.Impl.Read
import StarCache.Impl.Write

/-!
# The public operations

Each call starts a new trace. A buffer that a read fills is empty before the call.
-/

namespace StarCache

open Prog MachineInt

namespace StarCacheImpl

variable (rt : Runtime)

/-- `init`: `MemCache::init`, `DiskCache::init` and an empty index. -/
def init (pf : Platform) (options : CacheOptions) : State where
  options
  memSpace := ({} : MemSpaceManager).addCacheZone options.memQuotaBytes
  diskSpace := options.diskDirSpaces.foldl (DiskSpaceManager.addCacheDir pf.flags) {}
  files := fun _ _ _ => 0
  checksums := fun _ _ => 0
  memTracker := .create pf.flags.lruContainerShardBits
  diskTracker := .create pf.flags.lruContainerShardBits
  accessIndex := ∅
  concurrentWrites := 0
  items := fun _ => default
  itemCount := 0
  segments := fun _ => default
  segmentCount := 0
  liveItems := []
  liveSegments := []
  liveBlocks := []
  locals := []
  memHandles := []
  diskHandles := []
  clock := 0
  trace := []
  locks := []

def set (cacheKey : CacheKey) (buf : IOBuf) (options : Option WriteOptions) :
    Prog State Status := do
  let s ← read
  if buf.isEmpty then pure ⟨E_INTERNAL, "cache value should not be empty"⟩
  else if rt.flags.maxConcurrentWrites < s.concurrentWrites + 1 then
    pure ⟨EBUSY, "the cache system is busy now"⟩
  else do
    modify fun s => { s with concurrentWrites := s.concurrentWrites + 1 }
    let id := rt.cachekey2id cacheKey
    let st ← scope rt.toPlatform do
      let st ← match s.find id with
        | none => pure .OK
        | some r => do
            hold (.item r)
            if options.all (·.overwrite) then do
              removeCacheItem rt.toPlatform id r
              pure .OK
            else pure ⟨EEXIST, "the cache object already exists"⟩
      if st.ok then writeCacheItem rt id cacheKey buf options else pure st
    modify fun s => { s with concurrentWrites := s.concurrentWrites - 1 }
    pure st

/-- The check that `get`, `read`, `pin` and `unpin` start with. -/
def lookupItem (s : State) (cacheKey : CacheKey) : Option ItemRef :=
  (s.find (rt.cachekey2id cacheKey)).filter fun r =>
    (s.items r).cacheKey == cacheKey && !(s.items r).released

def notFound : Status := ⟨ENOENT, "The target not found"⟩

def get (cacheKey : CacheKey) (options : Option ReadOptions) : Prog State (Status × IOBuf) := do
  let s ← Prog.read
  match lookupItem rt s cacheKey with
  | none => pure (notFound, [])
  | some r => scope rt.toPlatform do
      hold (.item r)
      readCacheItem rt (rt.cachekey2id cacheKey) r 0 (s.items r).size options

def read (cacheKey : CacheKey) (offset : Int) (size : Nat) (options : Option ReadOptions) :
    Prog State (Status × IOBuf) := do
  let s ← Prog.read
  match lookupItem rt s cacheKey with
  | none => pure (notFound, [])
  | some r => scope rt.toPlatform do
      hold (.item r)
      readCacheItem rt (rt.cachekey2id cacheKey) r offset size options

def remove (cacheKey : CacheKey) : Prog State Status := do
  let s ← Prog.read
  let id := rt.cachekey2id cacheKey
  match (s.find id).filter fun r => (s.items r).cacheKey == cacheKey with
  | none => pure notFound
  | some r => scope rt.toPlatform do
      hold (.item r)
      if ← setReleased r true then do
        removeCacheItem rt.toPlatform id r
        pure .OK
      else pure .OK

/-- `_pin_cache_item`. -/
def pinCacheItem (id : CacheId) (r : ItemRef) : Prog State Status := do
  if ← setPinned r true then do
    let s ← Prog.read
    if s.hasDiskLayer then do
      DiskCache.evictUntrack rt.toPlatform id
      pure .OK
    else do
      let indexes ← blockIndexes ((s.items r).blockCount rt.flags)
      forEach indexes fun i => MemCache.evictUntrack rt.toPlatform ⟨id, i⟩
      pure .OK
  else pure .OK

def pin (cacheKey : CacheKey) : Prog State Status := do
  let s ← Prog.read
  match lookupItem rt s cacheKey with
  | none => pure notFound
  | some r => pinCacheItem rt (rt.cachekey2id cacheKey) r

/-- The body of the loop of `_unpin_cache_item` with a disk layer; answers whether
the item has been tracked. -/
def unpinDiskBlock (id : CacheId) (r : ItemRef) (i : Nat) : Prog State Bool := do
  lock false ⟨id, i⟩
  let block ← getBlock r i
  unlock false ⟨id, i⟩
  if block.diskBlockItem.isSome then do
    let s ← Prog.read
    DiskCache.evictTrack rt.toPlatform id (s.items r).size
    pure true
  else pure false

/-- The body of the loop without a disk layer. -/
def unpinMemBlock (id : CacheId) (r : ItemRef) (i : Nat) : Prog State Unit := do
  lock false ⟨id, i⟩
  let block ← getBlock r i
  unlock false ⟨id, i⟩
  let s ← Prog.read
  when block.memBlockItem.isSome
    (MemCache.evictTrack rt.toPlatform ⟨id, i⟩ ((s.items r).blockSize rt.flags i))

/-- `_unpin_cache_item`. -/
def unpinCacheItem (id : CacheId) (r : ItemRef) : Prog State Status := do
  if ← setPinned r false then do
    let s ← Prog.read
    let blockCount := (s.items r).blockCount rt.flags
    if s.hasDiskLayer then do
      let tracked ← forUntil (fun tracked => tracked) false
        (List.range (min blockCount 4294967296)) (unpinDiskBlock rt id r)
      require (tracked = true ∨ blockCount < 4294967296)
      pure .OK
    else do
      let indexes ← blockIndexes blockCount
      forEach indexes (unpinMemBlock rt id r)
      pure .OK
  else pure .OK

def unpin (cacheKey : CacheKey) : Prog State Status := do
  let s ← Prog.read
  match lookupItem rt s cacheKey with
  | none => pure notFound
  | some r => unpinCacheItem rt (rt.cachekey2id cacheKey) r

end StarCacheImpl

/-! ## Runs -/

inductive Call
  | set (cacheKey : CacheKey) (buf : IOBuf) (options : Option WriteOptions)
  | get (cacheKey : CacheKey) (options : Option ReadOptions)
  | read (cacheKey : CacheKey) (offset : Int) (size : Nat) (options : Option ReadOptions)
  | remove (cacheKey : CacheKey)
  | pin (cacheKey : CacheKey)
  | unpin (cacheKey : CacheKey)

structure Reply where
  status : Status
  buf : IOBuf := []

namespace Call

open StarCacheImpl

def body (rt : Runtime) : Call → Prog State Reply
  | .set cacheKey buf options => do
      let st ← StarCacheImpl.set rt cacheKey buf options
      pure ⟨st, []⟩
  | .get cacheKey options => do
      let result ← StarCacheImpl.get rt cacheKey options
      pure ⟨result.1, result.2⟩
  | .read cacheKey offset size options => do
      let result ← StarCacheImpl.read rt cacheKey offset size options
      pure ⟨result.1, result.2⟩
  | .remove cacheKey => do
      let st ← StarCacheImpl.remove rt cacheKey
      pure ⟨st, []⟩
  | .pin cacheKey => do
      let st ← StarCacheImpl.pin rt cacheKey
      pure ⟨st, []⟩
  | .unpin cacheKey => do
      let st ← StarCacheImpl.unpin rt cacheKey
      pure ⟨st, []⟩

def run (rt : Runtime) (call : Call) : Prog State Reply := do
  modify fun s => { s with trace := [], locks := [] }
  call.body rt

end Call

/-- A finished call. -/
structure Record where
  call : Call
  reply : Reply

/-- The runs of one instance, latest call first: each call returns before the next starts. -/
inductive Run (rt : Runtime) (options : CacheOptions) : List Record → State → Prop
  | init : Run rt options [] (StarCacheImpl.init rt.toPlatform options)
  | call {history : List Record} {s t : State} (c : Call) (reply : Reply) :
      Run rt options history s → c.run rt s = some (reply, t) →
        Run rt options (⟨c, reply⟩ :: history) t

/-- Run a list of calls from a state. -/
def runCalls (rt : Runtime) : List Call → List Record → State → Option (List Record × State)
  | [], history, s => some (history, s)
  | c :: rest, history, s =>
      match c.run rt s with
      | none => none
      | some (reply, t) => runCalls rt rest (⟨c, reply⟩ :: history) t

theorem runCalls_run {rt : Runtime} {options : CacheOptions} : ∀ (calls : List Call)
    {history : List Record} {s : State}, Run rt options history s →
      ∀ {history' t}, runCalls rt calls history s = some (history', t) →
        Run rt options history' t
  | [], history, s, h, history', t, heq => by
      cases heq
      exact h
  | c :: rest, history, s, h, history', t, heq => by
      unfold runCalls at heq
      cases hc : c.run rt s with
      | none => simp [hc] at heq
      | some result =>
          rw [hc] at heq
          exact runCalls_run rest (.call c result.1 h hc) heq

/-- What a test of the outcome of some calls finds is found in a run. -/
theorem Run.of_calls (rt : Runtime) (options : CacheOptions) (calls : List Call)
    (p : List Record → State → Bool)
    (h : (runCalls rt calls [] (StarCacheImpl.init rt.toPlatform options)).any
      (fun x => p x.1 x.2) = true) : ∃ history s, Run rt options history s ∧ p history s = true := by
  cases hx : runCalls rt calls [] (StarCacheImpl.init rt.toPlatform options) with
  | none =>
      rw [hx] at h
      cases h
  | some x =>
      rw [hx] at h
      exact ⟨x.1, x.2, runCalls_run calls .init hx, h⟩

end StarCache
