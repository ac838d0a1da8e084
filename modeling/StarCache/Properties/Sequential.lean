import StarCache.Refinement.Threads

/-!
# Sequential runs as interleavings

A run of the sequential model is one of the concurrent model, in which the thread of a call comes
to its end before the next one starts. Calls that read or pin work on what the threads do not
share, except for a read that promotes.
-/

namespace StarCache

open Prog StarCacheImpl

/-- The call promotes nothing. -/
def Call.Still (rt : Runtime) : Call → Prop
  | .get _ options | .read _ _ _ options => rt.promotionPolicy.Refuses options
  | _ => True

/-- The result of the thread of a call. -/
def Record.threaded (record : Record) : Option (Concurrent.Call × Option Status) :=
  match record.call with
  | .set cacheKey buf options => some (.set cacheKey buf options, some record.reply.status)
  | .remove cacheKey => some (.remove cacheKey, some record.reply.status)
  | _ => none

section Hidden

variable {rt : Runtime} {cacheKey : CacheKey}

/-! ## Reads -/

theorem hidden_memTouch (key : BlockKey) (force : Bool) :
    Hidden State.shared (MemCache.evictTouch rt.toPlatform key force) :=
  .bind hidden_tick fun _ => hidden_ite (hidden_modifyGet fun _ => rfl) (hidden_pure _)

theorem hidden_readMem (key : BlockKey) (block : Option MemBlockItem) (offset : Int) (size : Nat) :
    Hidden State.shared (MemCache.readBlock rt.toPlatform key block offset size) := by
  cases block with
  | none => exact hidden_pure _
  | some block =>
      exact hidden_ite (hidden_pure _) (.bind (hidden_memTouch _ _) fun _ =>
        .bind (hidden_modify fun _ => rfl) fun _ => .bind hidden_read fun _ => hidden_deref _)

theorem hidden_fileRead (pos : FilePos) (size : Nat) :
    Hidden State.shared (BlockFile.read rt.toPlatform pos size) := by
  refine .bind hidden_tick fun n => hidden_ite (hidden_pure _) ?_
  split
  next => exact hidden_pure _
  next => exact hidden_ite (hidden_pure _) (.bind hidden_read fun _ => hidden_pure _)

theorem hidden_readDisk (cacheId : CacheId) (id : BlockId) (offset size : Nat) :
    Hidden State.shared (DiskCache.readBlock rt.toPlatform cacheId id offset size) := by
  refine .bind hidden_read fun _ => hidden_ite (hidden_pure _) ?_
  refine .bind (hidden_diskTouch _ _) fun handle => .bind (hidden_diskRelease handle) fun _ => ?_
  refine hidden_ite (hidden_pure _) (.bind (hidden_locate _ _) fun pos => ?_)
  refine .bind (hidden_fileRead pos size) fun result => hidden_ite (hidden_pure _) ?_
  refine hidden_ite (.bind ?_ fun _ => hidden_ite (hidden_pure _) (hidden_pure _)) (hidden_pure _)
  refine .bind ?_ fun _ => .bind hidden_read fun _ => hidden_pure _
  exact .bind (hidden_require _) fun _ => hidden_require _

theorem hidden_readGap (cacheId : CacheId) (id : BlockId) (p : ReadProgress) (size : Nat) :
    Hidden State.shared (readGap rt cacheId id p size) :=
  .bind (hidden_readDisk _ _ _ _) fun _ => hidden_ite (hidden_pure _) (hidden_pure _)

theorem hidden_mergeSegments (cacheId : CacheId) (disk : Option BlockId)
    (segs : List BlockSegment) (p : ReadProgress) :
    Hidden State.shared (mergeSegments rt cacheId disk segs p) := by
  induction segs generalizing p with
  | nil => exact hidden_pure _
  | cons seg rest ih =>
      refine hidden_ite ?_ (ih _)
      cases disk with
      | none => exact hidden_pure _
      | some id => exact .bind (hidden_readGap _ _ _ _) fun _ => hidden_ite (ih _) (hidden_pure _)

theorem hidden_readLocked (key : BlockKey) (block : BlockItem) (offset : Int) (size : Nat) :
    Hidden State.shared (readLocked rt key block offset size) := by
  refine .bind (hidden_readMem _ _ _ _) fun segs => ?_
  refine .bind (hidden_mergeSegments _ _ _ _) fun merged => ?_
  refine hidden_ite ?_ (hidden_pure _)
  unfold readRest
  split
  next => exact hidden_pure _
  next => exact hidden_ite (hidden_readGap _ _ _ _) (hidden_pure _)

variable {options : Option ReadOptions} (hstill : rt.promotionPolicy.Refuses options)

include hstill

theorem hidden_readBlock (r : ItemRef) (key : BlockKey) (offset : Int) (size : Nat) :
    Hidden State.shared (readBlock rt r key offset size options) := by
  refine hidden_scope (.bind (hidden_lock _ _) fun _ => .bind (hidden_getBlock _ _) fun block => ?_)
  refine .bind (hidden_forEach hidden_hold) fun _ => ?_
  refine .bind (hidden_readLocked _ _ _ _) fun result => .bind (hidden_unlock _ _) fun _ => ?_
  refine hidden_ite (hidden_pure _) (hidden_ite (hidden_pure _) ?_)
  refine .bind hidden_tick fun n => .bind hidden_read fun s => .bind ?_ fun _ => hidden_pure _
  rw [hstill, Bool.and_false]
  exact hidden_pure _

theorem hidden_readCacheItem (id : CacheId) (r : ItemRef) (offset : Int) (size : Nat) :
    Hidden State.shared (readCacheItem rt id r offset size options) := by
  have hblocks : ∀ (ranges : List BlockRange) (buf : IOBuf),
      Hidden State.shared (readBlocks rt id r options ranges buf) := by
    intro ranges
    induction ranges with
    | nil => exact fun buf => hidden_pure _
    | cons range rest ih =>
        exact fun buf => .bind (hidden_readBlock hstill _ _ _ _) fun _ =>
          hidden_ite (ih _) (hidden_pure _)
  refine .bind hidden_read fun s => hidden_ite (hidden_pure _) ?_
  refine .bind (hblocks _ _) fun result => ?_
  exact hidden_ite (.bind (hidden_require _) fun _ => hidden_pure _) (hidden_pure _)

theorem hidden_get : Hidden State.shared (get rt cacheKey options) := by
  refine .bind hidden_read fun s => ?_
  split
  next => exact hidden_pure _
  next r _ =>
    exact hidden_scope (.bind (hidden_hold _) fun _ => hidden_readCacheItem hstill _ _ _ _)

theorem hidden_readCall (offset : Int) (size : Nat) :
    Hidden State.shared (read rt cacheKey offset size options) := by
  refine .bind hidden_read fun s => ?_
  split
  next => exact hidden_pure _
  next r _ =>
    exact hidden_scope (.bind (hidden_hold _) fun _ => hidden_readCacheItem hstill _ _ _ _)

omit hstill

/-! ## Pins -/

theorem hidden_pin : Hidden State.shared (pin rt cacheKey) := by
  refine .bind hidden_read fun s => ?_
  split
  next => exact hidden_pure _
  next r _ =>
    refine .bind (Concurrent.hidden_setPinned true) fun _ => hidden_ite ?_ (hidden_pure _)
    refine .bind hidden_read fun _ => hidden_ite ?_ ?_
    · exact .bind (hidden_diskUntrack _) fun _ => hidden_pure _
    · exact .bind (Concurrent.hidden_blockIndexes _) fun _ =>
        .bind (hidden_forEach fun _ => hidden_memUntrack _) fun _ => hidden_pure _

theorem hidden_unpinDiskBlock (id : CacheId) (r : ItemRef) (i : Nat) :
    Hidden State.shared (unpinDiskBlock rt id r i) := by
  refine .bind (hidden_lock _ _) fun _ => .bind (hidden_getBlock _ _) fun _ =>
    .bind (hidden_unlock _ _) fun _ => hidden_ite ?_ (hidden_pure _)
  exact .bind hidden_read fun _ => .bind (hidden_diskTrack _ _) fun _ => hidden_pure _

theorem hidden_unpinMemBlock (id : CacheId) (r : ItemRef) (i : Nat) :
    Hidden State.shared (unpinMemBlock rt id r i) :=
  .bind (hidden_lock _ _) fun _ => .bind (hidden_getBlock _ _) fun _ =>
    .bind (hidden_unlock _ _) fun _ => .bind hidden_read fun _ => hidden_when (hidden_memTrack _ _)

theorem hidden_unpin : Hidden State.shared (unpin rt cacheKey) := by
  refine .bind hidden_read fun s => ?_
  split
  next => exact hidden_pure _
  next r _ =>
    refine .bind (Concurrent.hidden_setPinned false) fun _ => hidden_ite ?_ (hidden_pure _)
    refine .bind hidden_read fun _ => hidden_ite ?_ ?_
    · exact .bind (hidden_forUntil fun _ => hidden_unpinDiskBlock _ _ _) fun _ =>
        .bind (hidden_require _) fun _ => hidden_pure _
    · exact .bind (Concurrent.hidden_blockIndexes _) fun _ =>
        .bind (hidden_forEach fun _ => hidden_unpinMemBlock _ _ _) fun _ => hidden_pure _

end Hidden

/-! ## Runs -/

section Runs

variable {rt : Runtime} {options : CacheOptions} {history : List Record} {s t : State}

/-- A call that starts no thread cannot be seen by any. -/
theorem Call.hidden {c : Call} {reply : Reply} (hstill : c.Still rt)
    (hnone : Record.threaded ⟨c, reply⟩ = none) : Hidden State.shared (c.run rt) := by
  refine .bind (hidden_modify fun _ => rfl) fun _ => ?_
  cases c with
  | set | remove => cases hnone
  | get => exact .bind (hidden_get hstill) fun _ => hidden_pure _
  | read => exact .bind (hidden_readCall hstill _ _) fun _ => hidden_pure _
  | pin => exact .bind hidden_pin fun _ => hidden_pure _
  | unpin => exact .bind hidden_unpin fun _ => hidden_pure _

/-- The thread of a call, alone, ends with its reply. -/
theorem Call.solo {c : Call} {reply : Reply} (hcall : c.run rt s = some (reply, t))
    {x : Concurrent.Call × Option Status} (hx : Record.threaded ⟨c, reply⟩ = some x) :
    Thread.Solo (Concurrent.effect rt.flags) (x.1.thread rt.toPlatform) s.shared x t.shared := by
  obtain ⟨_, u, hstart, hcall⟩ := bind_eq_some.mp hcall
  cases hstart
  cases c with
  | get | read | pin | unpin => cases hx
  | set cacheKey buf writeOptions =>
      cases hx
      obtain ⟨st, v, hset, hcall⟩ := bind_eq_some.mp hcall
      cases hcall
      exact (Concurrent.follows_set cacheKey buf writeOptions _ st t hset).bind (.done _ _)
  | remove cacheKey =>
      cases hx
      obtain ⟨st, v, hremove, hcall⟩ := bind_eq_some.mp hcall
      cases hcall
      exact (Concurrent.follows_removal cacheKey _ st t hremove).bind (.done _ _)

end Runs

end StarCache
