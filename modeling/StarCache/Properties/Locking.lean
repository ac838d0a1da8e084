import StarCache.Impl.Public
import StarCache.Refinement.Guards

/-!
# Block locks

An operation has at most one block mutex at a time, whatever it triggers: eviction, flush
and allocation on disk start when nothing is locked. So two keys that share a mutex never
lock it twice.
-/

namespace StarCache

open Prog MachineInt

/-! ## Eviction and flush -/

namespace StarCacheImpl

section Evict

variable {pf : Platform} {r : ItemRef} {key : BlockKey}

theorem locks_blockIndexes {g : Option Guard} (count : Nat) : Locks g (blockIndexes count) g :=
  (locks_require _).bind fun _ => locks_pure _

theorem locks_removeCacheItem (id : CacheId) : Locks none (removeCacheItem pf id r) none := by
  apply (locks_indexRemove id).bind
  intro _
  apply locks_read.bind
  intro s
  apply (locks_blockIndexes _).bind
  intro indexes
  apply Locks.bind
  · apply Locks.forEach
    intro i
    apply locks_lock.bind
    intro _
    apply locks_getBlock.bind
    intro _
    apply locks_clearBlock.bind
    intro _
    apply (MemCache.locks_evictUntrack _).bind
    intro _
    exact locks_unlock
  intro _
  exact DiskCache.locks_evictUntrack id

theorem locks_processEvictedDiskItem (id : CacheId) :
    Locks none (processEvictedDiskItem pf id r) none := by
  apply Locks.scope
  apply (locks_hold _).bind
  intro _
  apply (locks_emit _).bind
  intro _
  apply locks_clearDiskBlocks.bind
  intro _
  apply locks_releaseIfEmpty.bind
  intro released
  exact .ite (locks_removeCacheItem id) (locks_pure ())

theorem locks_processEvictedDiskItems (ids : List CacheId) :
    Locks none (processEvictedDiskItems pf ids) none := by
  induction ids with
  | nil => exact locks_pure ()
  | cons id rest ih =>
      apply locks_read.bind
      intro s
      cases s.find id with
      | none => exact locks_emit _
      | some r => exact (locks_processEvictedDiskItem id).bind fun _ => ih

theorem locks_allocDiskBlock : Locks none (allocDiskBlock pf key) none := by
  apply Locks.retry
  · intro i
    exact DiskCache.locks_newBlockItem
  apply (DiskCache.locks_evictFor _ _).bind
  intro ids
  exact locks_processEvictedDiskItems ids

theorem locks_writeSegments {g : Option Guard} (id : BlockId) (segs : List BlockSegment) :
    Locks g (writeSegments pf id segs) g :=
  .forUntil (DiskCache.locks_writeBlock id) segs

/-- Setting the disk block under the lock. -/
theorem locks_flushOver (refs : List SegmentRef) (id : BlockId) :
    Locks none (flushOver pf r key refs id) none := by
  apply locks_lock.bind
  intro _
  apply locks_read.bind
  intro s
  apply (locks_writeSegments id _).bind
  intro st
  apply Locks.ite
  · apply (locks_setDiskBlock id).bind
    intro _
    exact locks_unlock.bind fun _ => locks_pure st
  · exact locks_unlock.bind fun _ => locks_pure st

theorem locks_flushNew (refs : List SegmentRef) : Locks none (flushNew pf r key refs) none := by
  apply locks_allocDiskBlock.bind
  intro found
  cases found with
  | none => exact locks_pure _
  | some id =>
      apply Locks.scope
      apply (locks_hold _).bind
      intro _
      apply locks_read.bind
      intro s
      apply (locks_writeSegments id _).bind
      intro st
      apply Locks.ite
      · apply locks_lock.bind
        intro _
        apply (locks_setDiskBlock id).bind
        intro _
        exact locks_unlock.bind fun _ => locks_pure st
      · exact locks_pure st

theorem locks_flushBlockSegments (refs : List SegmentRef) :
    Locks none (flushBlockSegments pf r key refs) none := by
  apply locks_lock.bind
  intro _
  apply locks_getBlock.bind
  intro block
  apply locks_unlock.bind
  intro _
  apply Locks.bind
  · cases block.diskBlockItem with
    | none => exact locks_flushNew refs
    | some id => exact locks_flushOver refs id
  intro st
  apply locks_read.bind
  intro s
  apply (Locks.when (locks_emit _)).bind
  intro _
  apply locks_lock.bind
  intro _
  apply (locks_setMemBlock none).bind
  intro _
  exact locks_unlock.bind fun _ => locks_pure st

theorem locks_deleteBlock : Locks none (deleteBlock pf r key) none := by
  apply (locks_emit _).bind
  intro _
  apply locks_lock.bind
  intro _
  apply locks_clearBlock.bind
  intro _
  apply locks_unlock.bind
  intro _
  apply locks_releaseIfEmpty.bind
  intro released
  apply Locks.ite
  · exact (locks_removeCacheItem _).bind fun _ => locks_pure _
  · exact locks_pure _

end Evict

variable {rt : Runtime} {r : ItemRef} {key : BlockKey}

theorem locks_flushTouched (tracked : Bool) : Locks none (flushTouched rt r key tracked) none := by
  apply locks_getBlock.bind
  intro block
  cases block.memBlockItem with
  | none => exact locks_pure _
  | some memBlock =>
      apply (locks_hold _).bind
      intro _
      apply locks_tick.bind
      intro n
      apply locks_read.bind
      intro s
      dsimp only
      cases flushAdmission rt n s (s.items r) key with
      | skip => exact (Locks.when (MemCache.locks_evictTrack _ _)).bind fun _ => locks_pure _
      | delete => exact locks_deleteBlock
      | flush =>
          apply (locks_require _).bind
          intro _
          apply Locks.ite
          · exact locks_deleteBlock
          apply (locks_flushBlockSegments _).bind
          intro st
          exact (Locks.when (DiskCache.locks_evictTrack _ _)).bind fun _ => locks_pure st

theorem locks_flushBlock : Locks none (flushBlock rt r key) none := by
  apply locks_read.bind
  intro s
  apply Locks.ite
  · exact locks_pure _
  apply (DiskCache.locks_evictTouch _ _).bind
  intro handle
  apply (Locks.scope (locks_flushTouched _)).bind
  intro st
  exact (DiskCache.locks_evictRelease handle).bind fun _ => locks_pure st

theorem locks_processEvictedMemItem : Locks none (processEvictedMemItem rt key r) none := by
  apply Locks.scope
  apply (locks_hold _).bind
  intro _
  apply locks_lock.bind
  intro _
  apply locks_read.bind
  intro s
  apply Locks.ite
  · exact locks_unlock
  apply locks_getBlock.bind
  intro block
  cases block.memBlockItem with
  | none => exact locks_unlock
  | some memBlock =>
      apply (locks_hold _).bind
      intro _
      apply Locks.ite
      · apply locks_unlock.bind
        intro _
        exact locks_flushBlock.bind fun _ => locks_pure ()
      · exact (locks_setMemBlock none).bind fun _ => locks_unlock

theorem locks_processEvictedMemBlocks (keys : List BlockKey) :
    Locks none (processEvictedMemBlocks rt keys) none := by
  apply Locks.forEach
  intro key
  apply locks_read.bind
  intro s
  cases s.find key.cacheId with
  | none => exact locks_pure ()
  | some r => exact locks_processEvictedMemItem

theorem locks_allocCacheItem (cacheKey : CacheKey) (size expireTime : Nat) :
    Locks none (allocCacheItem rt cacheKey size expireTime) none := by
  apply Locks.retry
  · intro i
    exact MemCache.locks_newCacheItem _ _ _ _
  apply (MemCache.locks_evict _).bind
  intro keys
  exact locks_processEvictedMemBlocks keys

theorem locks_allocBlockSegment (offset size : Nat) (buf : IOBuf) :
    Locks none (allocBlockSegment rt key offset size buf) none := by
  apply Locks.retry
  · intro i
    exact MemCache.locks_newBlockSegment _ _ _ _
  apply (MemCache.locks_evictFor _ _).bind
  intro keys
  exact locks_processEvictedMemBlocks keys

/-! ## Writes -/

theorem locks_writeMemBlock (buf : IOBuf) (pinned : Bool) :
    Locks none (writeMemBlock rt r key buf pinned) none := by
  apply Locks.bind
  · exact .ite (locks_pure _) (BlockFile.locks_alignIobuf buf)
  intro sbuf
  cases sbuf with
  | none => exact locks_pure _
  | some sbuf =>
      apply (locks_allocBlockSegment _ _ _).bind
      intro found
      cases found with
      | none => exact locks_pure _
      | some g =>
          apply (MemCache.locks_writeBlock _ _).bind
          intro memBlock
          apply locks_lock.bind
          intro _
          apply (locks_setMemBlock _).bind
          intro _
          apply locks_unlock.bind
          intro _
          apply locks_read.bind
          intro s
          exact (Locks.when (MemCache.locks_evictTrack _ _)).bind fun _ => locks_pure _

theorem locks_writeDiskBlock (buf : IOBuf) (pinned : Bool) :
    Locks none (writeDiskBlock rt r key buf pinned) none := by
  apply locks_allocDiskBlock.bind
  intro found
  cases found with
  | none => exact locks_pure _
  | some id =>
      apply Locks.scope
      apply (locks_hold _).bind
      intro _
      apply (DiskCache.locks_writeBlock id _).bind
      intro st
      apply Locks.ite
      · apply locks_lock.bind
        intro _
        apply (locks_setDiskBlock id).bind
        intro _
        apply locks_unlock.bind
        intro _
        apply locks_read.bind
        intro s
        exact (Locks.when (DiskCache.locks_evictTrack _ _)).bind fun _ => locks_pure _
      · exact locks_pure st

theorem locks_writeBlock (buf : IOBuf) (options : Option WriteOptions) :
    Locks none (writeBlock rt r key buf options) none := by
  apply locks_getBlock.bind
  intro _
  apply locks_tick.bind
  intro n
  apply locks_read.bind
  intro s
  apply (locks_deref _).bind
  intro location
  cases location with
  | mem => exact locks_writeMemBlock buf _
  | disk => exact locks_writeDiskBlock buf _
  | none => exact locks_pure _

theorem locks_writeCacheItem (id : CacheId) (cacheKey : CacheKey) (buf : IOBuf)
    (options : Option WriteOptions) : Locks none (writeCacheItem rt id cacheKey buf options) none := by
  apply locks_tick.bind
  intro n
  apply (locks_allocCacheItem cacheKey _ _).bind
  intro found
  cases found with
  | none => exact locks_undefined
  | some r =>
      apply Locks.scope
      apply (locks_hold _).bind
      intro _
      apply (Locks.when ((locks_setPinned true).bind fun _ => locks_pure ())).bind
      intro _
      apply Locks.bind
      · exact .forUntil (fun i => locks_writeBlock _ options) _
      intro st
      apply Locks.ite
      · apply (locks_require _).bind
        intro _
        exact (locks_indexInsert id).bind fun _ => locks_pure _
      · exact locks_pure st

/-! ## Reads -/

theorem locks_allocSegments (segs : List BlockSegment) :
    Locks none (allocSegments rt key segs) none := by
  induction segs with
  | nil => exact locks_pure []
  | cons seg rest ih =>
      apply (locks_allocBlockSegment _ _ _).bind
      intro found
      cases found with
      | none => exact ih
      | some g =>
          apply (locks_hold _).bind
          intro _
          exact ih.bind fun refs => locks_pure (g :: refs)

theorem locks_promoteBlockSegments (segs : List BlockSegment) :
    Locks none (promoteBlockSegments rt r key segs) none := by
  apply (MemCache.locks_evictTouch key true).bind
  intro handle
  apply Locks.bind
  · apply Locks.scope
    apply (locks_allocSegments segs).bind
    intro refs
    apply Locks.ite
    · exact locks_pure ()
    apply locks_lock.bind
    intro _
    apply locks_getBlock.bind
    intro block
    have htrack : Locks none (do
        let s ← Prog.read
        when (!handle.isSome) (MemCache.evictTrack rt.toPlatform key
          ((s.items r).blockSize rt.flags key.blockIndex))) none :=
      locks_read.bind fun s => .when (MemCache.locks_evictTrack _ _)
    dsimp only
    cases block.memBlockItem with
    | none =>
        apply locks_unlock.bind
        intro _
        apply (MemCache.locks_writeBlock _ _).bind
        intro memBlock
        apply locks_lock.bind
        intro _
        apply (locks_setMemBlock _).bind
        intro _
        exact locks_unlock.bind fun _ => htrack
    | some memBlock =>
        apply (MemCache.locks_writeBlock _ _).bind
        intro memBlock
        apply (locks_setMemBlock _).bind
        intro _
        exact locks_unlock.bind fun _ => htrack
  intro _
  exact MemCache.locks_evictRelease handle

section Locked

variable {g : Option Guard} (cacheId : CacheId) (disk : Option BlockId)

theorem locks_readGap (id : BlockId) (p : ReadProgress) (size : Nat) :
    Locks g (readGap rt cacheId id p size) g := by
  apply (DiskCache.locks_readBlock _ _ _ _).bind
  intro result
  exact .ite (locks_pure _) (locks_pure _)

theorem locks_mergeSegments (segs : List BlockSegment) (p : ReadProgress) :
    Locks g (mergeSegments rt cacheId disk segs p) g := by
  induction segs generalizing p with
  | nil => exact locks_pure _
  | cons seg rest ih =>
      apply Locks.ite
      · cases disk with
        | none => exact locks_pure _
        | some id =>
            apply (locks_readGap cacheId id p _).bind
            intro result
            exact .ite (ih _) (locks_pure result)
      · exact ih _

theorem locks_readRest (size : Nat) (p : ReadProgress) :
    Locks g (readRest rt cacheId disk size p) g := by
  cases disk with
  | none => exact locks_pure _
  | some id => exact .ite (locks_readGap cacheId id p _) (locks_pure _)

theorem locks_readLocked (block : BlockItem) (offset : Int) (size : Nat) :
    Locks g (readLocked rt key block offset size) g := by
  apply (MemCache.locks_readBlock _ _ _ _).bind
  intro segments
  apply (locks_mergeSegments _ _ segments _).bind
  intro merged
  exact .ite (locks_readRest _ _ size _) (locks_pure merged)

end Locked

theorem locks_readBlock (offset : Int) (size : Nat) (options : Option ReadOptions) :
    Locks none (readBlock rt r key offset size options) none := by
  apply Locks.scope
  apply locks_lock.bind
  intro _
  apply locks_getBlock.bind
  intro block
  apply (Locks.forEach locks_hold _).bind
  intro _
  apply (locks_readLocked block offset size).bind
  intro result
  apply locks_unlock.bind
  intro _
  apply Locks.ite
  · exact locks_pure _
  apply Locks.ite
  · exact locks_pure _
  apply locks_tick.bind
  intro n
  apply locks_read.bind
  intro s
  exact (Locks.when (locks_promoteBlockSegments _)).bind fun _ => locks_pure _

theorem locks_readBlocks (id : CacheId) (options : Option ReadOptions) (ranges : List BlockRange)
    (buf : IOBuf) : Locks none (readBlocks rt id r options ranges buf) none := by
  induction ranges generalizing buf with
  | nil => exact locks_pure _
  | cons range rest ih =>
      apply (locks_readBlock _ _ options).bind
      intro result
      exact .ite (ih _) (locks_pure _)

theorem locks_readCacheItem (id : CacheId) (offset : Int) (size : Nat)
    (options : Option ReadOptions) : Locks none (readCacheItem rt id r offset size options) none := by
  apply locks_read.bind
  intro s
  apply Locks.ite
  · exact locks_pure _
  apply (locks_readBlocks id options _ _).bind
  intro result
  apply Locks.ite
  · exact (locks_require _).bind fun _ => locks_pure _
  · exact locks_pure result

/-! ## The public operations -/

theorem locks_set (cacheKey : CacheKey) (buf : IOBuf) (options : Option WriteOptions) :
    Locks none (set rt cacheKey buf options) none := by
  apply locks_read.bind
  intro s
  apply Locks.ite
  · exact locks_pure _
  apply Locks.ite
  · exact locks_pure _
  apply Locks.bind
  · exact locks_modify fun _ => rfl
  intro _
  apply Locks.bind
  · apply Locks.scope
    have hwrite : ∀ st : Status, Locks none (if st.ok then
        writeCacheItem rt (rt.cachekey2id cacheKey) cacheKey buf options else pure st) none :=
      fun st => .ite (locks_writeCacheItem _ cacheKey buf options) (locks_pure st)
    dsimp only
    cases s.find (rt.cachekey2id cacheKey) with
    | none => exact (locks_pure _).bind hwrite
    | some r =>
        apply (locks_hold _).bind
        intro _
        apply Locks.ite
        · apply (locks_removeCacheItem _).bind
          intro _
          exact (locks_pure _).bind hwrite
        · exact (locks_pure _).bind hwrite
  intro st
  apply Locks.bind
  · exact locks_modify fun _ => rfl
  intro _
  exact locks_pure st

theorem locks_remove (cacheKey : CacheKey) : Locks none (remove rt cacheKey) none := by
  apply locks_read.bind
  intro s
  dsimp only
  split
  · exact locks_pure _
  · apply Locks.scope
    apply (locks_hold _).bind
    intro _
    apply (locks_setReleased true).bind
    intro changed
    apply Locks.ite
    · exact (locks_removeCacheItem _).bind fun _ => locks_pure _
    · exact locks_pure _

theorem locks_pinCacheItem {g : Option Guard} (id : CacheId) :
    Locks g (pinCacheItem rt id r) g := by
  apply (locks_setPinned true).bind
  intro changed
  apply Locks.ite
  · apply locks_read.bind
    intro s
    apply Locks.ite
    · exact (DiskCache.locks_evictUntrack id).bind fun _ => locks_pure _
    apply (locks_blockIndexes _).bind
    intro indexes
    apply (Locks.forEach (fun i => MemCache.locks_evictUntrack ⟨id, i⟩) indexes).bind
    intro _
    exact locks_pure _
  · exact locks_pure _

theorem locks_unpinDiskBlock (id : CacheId) (i : Nat) :
    Locks none (unpinDiskBlock rt id r i) none := by
  apply locks_lock.bind
  intro _
  apply locks_getBlock.bind
  intro block
  apply locks_unlock.bind
  intro _
  apply Locks.ite
  · apply locks_read.bind
    intro s
    exact (DiskCache.locks_evictTrack _ _).bind fun _ => locks_pure true
  · exact locks_pure false

theorem locks_unpinMemBlock (id : CacheId) (i : Nat) :
    Locks none (unpinMemBlock rt id r i) none := by
  apply locks_lock.bind
  intro _
  apply locks_getBlock.bind
  intro block
  apply locks_unlock.bind
  intro _
  apply locks_read.bind
  intro s
  exact Locks.when (MemCache.locks_evictTrack _ _)

theorem locks_unpinCacheItem (id : CacheId) : Locks none (unpinCacheItem rt id r) none := by
  apply (locks_setPinned false).bind
  intro changed
  apply Locks.ite
  · apply locks_read.bind
    intro s
    dsimp only
    apply Locks.ite
    · apply (Locks.forUntil (locks_unpinDiskBlock id) _).bind
      intro tracked
      exact (locks_require _).bind fun _ => locks_pure _
    apply (locks_blockIndexes _).bind
    intro indexes
    exact (Locks.forEach (locks_unpinMemBlock id) indexes).bind fun _ => locks_pure _
  · exact locks_pure _

/-- An operation that starts with a lookup. -/
theorem locks_lookup {α : Type} {cacheKey : CacheKey} {absent : Prog State α}
    {found : State → ItemRef → Prog State α} (habsent : Locks none absent none)
    (hfound : ∀ s r, Locks none (found s r) none) :
    Locks none (do
      let s ← Prog.read
      match lookupItem rt s cacheKey with
      | none => absent
      | some r => found s r) none := by
  apply locks_read.bind
  intro s
  cases lookupItem rt s cacheKey with
  | none => exact habsent
  | some r => exact hfound s r

end StarCacheImpl

theorem locks_body (rt : Runtime) (c : Call) : Locks none (c.body rt) none := by
  cases c with
  | set cacheKey buf options =>
      exact (StarCacheImpl.locks_set cacheKey buf options).bind fun _ => locks_pure _
  | get cacheKey options =>
      apply Locks.bind
      · apply StarCacheImpl.locks_lookup (locks_pure _)
        intro s r
        apply Locks.scope
        exact (locks_hold _).bind fun _ => StarCacheImpl.locks_readCacheItem _ _ _ options
      intro result
      exact locks_pure _
  | read cacheKey offset size options =>
      apply Locks.bind
      · apply StarCacheImpl.locks_lookup (locks_pure _)
        intro s r
        apply Locks.scope
        exact (locks_hold _).bind fun _ => StarCacheImpl.locks_readCacheItem _ offset size options
      intro result
      exact locks_pure _
  | remove cacheKey =>
      exact (StarCacheImpl.locks_remove cacheKey).bind fun _ => locks_pure _
  | pin cacheKey =>
      apply Locks.bind
      · apply StarCacheImpl.locks_lookup (locks_pure _)
        intro s r
        exact StarCacheImpl.locks_pinCacheItem _
      intro st
      exact locks_pure _
  | unpin cacheKey =>
      apply Locks.bind
      · apply StarCacheImpl.locks_lookup (locks_pure _)
        intro s r
        exact StarCacheImpl.locks_unpinCacheItem _
      intro st
      exact locks_pure _

/-- No operation locks a block mutex while it has one, of whatever key and in whatever mode;
each guard is locked when it is unlocked, and none is at the end. -/
theorem locks_disciplined {rt : Runtime} {s t : State} {c : Call} {reply : Reply}
    (hcall : c.run rt s = some (reply, t)) :
    (∀ before step rest, t.locks = before ++ step :: rest →
      step.Allowed (LockStep.held before)) ∧ LockStep.held t.locks = [] := by
  obtain ⟨_, u, hreset, hbody⟩ := bind_eq_some.mp hcall
  cases hreset
  obtain ⟨steps, ht, hreplay⟩ := locks_body rt c _ _ _ hbody
  have hsteps : t.locks = steps := ht
  rw [hsteps]
  refine ⟨fun before step rest heq => ?_, LockStep.held_of_replay hreplay⟩
  rw [heq] at hreplay
  exact LockStep.allowed_of_replay hreplay

/-- A read that promotes two blocks, each after another one has been flushed. -/
theorem locks_disciplined_promotion : ∃ s reply t,
    (Call.get [1] none).run (.simple .small .reliable) s = some (reply, t) ∧
      t.locks.length = 28 ∧ LockStep.held t.locks = [] := by
  obtain ⟨history, s, _, hp⟩ := Run.of_calls (.simple .small .reliable) (.oneDir 12 16)
    [.set [1] [1, 2, 3, 4, 5, 6, 7, 8] none, .set [2] [1, 2, 3, 4] none]
    (fun _ s => ((Call.get [1] none).run (.simple .small .reliable) s).any
      fun x => x.2.locks.length == 28)
    (by decide +kernel)
  obtain ⟨⟨reply, t⟩, hcall, hlength⟩ := (Option.any_eq_true _ _).mp hp
  exact ⟨s, reply, t, hcall, eq_of_beq hlength, (locks_disciplined hcall).2⟩

end StarCache
