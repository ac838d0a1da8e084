import StarCache.Foundation.Solo
import StarCache.Impl.Concurrent
import StarCache.Impl.Public

/-!
# Sequential calls as threads

The calls of the sequential model, step by step, are the threads of the concurrent one that work
on index and items. A thread alone takes the actions of the call; what the call does to the
eviction policies, to files and to counters answers the questions of the thread.
-/

namespace StarCache

open Prog MachineInt StarCacheImpl

/-- What the threads see of a state. -/
def CacheItem.unpinned (item : CacheItem) : CacheItem := { item with pinned := false }

def State.shared (s : State) : Concurrent.Shared where
  index := s.find
  items r := (s.items r).unpinned
  itemCount := s.itemCount

/-! ## What threads do not see -/

section Hidden

variable {pf : Platform} {α : Type}

theorem hidden_hold (x : Local) : Hidden State.shared (hold x) := hidden_modify fun _ => rfl

theorem hidden_emit (e : Event) : Hidden State.shared (emit e) := hidden_modify fun _ => rfl

theorem hidden_lock (unique : Bool) (key : BlockKey) : Hidden State.shared (lock unique key) :=
  hidden_modify fun _ => rfl

theorem hidden_unlock (unique : Bool) (key : BlockKey) : Hidden State.shared (unlock unique key) :=
  hidden_modify fun _ => rfl

theorem hidden_tick : Hidden State.shared tick := hidden_modifyGet fun _ => rfl

theorem hidden_collect : Hidden State.shared (collect pf) := by
  refine .bind (hidden_modify fun _ => rfl) fun _ => .bind (hidden_modify fun _ => rfl) fun _ =>
    .bind hidden_read fun s => ?_
  exact .bind (hidden_forEach fun id => hidden_zoom fun _ _ => rfl) fun _ =>
    hidden_modify fun _ => rfl

theorem hidden_scope {body : Prog State α} (h : Hidden State.shared body) :
    Hidden State.shared (scope pf body) :=
  .bind hidden_read fun _ => .bind h fun a => .bind (hidden_modify fun _ => rfl) fun _ =>
    .bind hidden_collect fun _ => hidden_pure a

theorem hidden_memTrack (key : BlockKey) (size : Nat) :
    Hidden State.shared (MemCache.evictTrack pf key size) :=
  .bind (hidden_modify fun _ => rfl) fun _ => hidden_emit _

theorem hidden_memUntrack (key : BlockKey) : Hidden State.shared (MemCache.evictUntrack pf key) :=
  hidden_modify fun _ => rfl

theorem hidden_memEvict (size : Nat) : Hidden State.shared (MemCache.evict size) :=
  .bind (hidden_modifyGet fun _ => rfl) fun _ => .bind (hidden_emit _) fun _ => hidden_pure _

theorem hidden_memEvictFor (key : BlockKey) (size : Nat) :
    Hidden State.shared (MemCache.evictFor pf key size) :=
  .bind (hidden_modifyGet fun _ => rfl) fun _ => .bind (hidden_emit _) fun _ => hidden_pure _

theorem hidden_diskTrack (id : CacheId) (size : Nat) :
    Hidden State.shared (DiskCache.evictTrack pf id size) :=
  .bind (hidden_modify fun _ => rfl) fun _ => hidden_emit _

theorem hidden_diskUntrack (id : CacheId) : Hidden State.shared (DiskCache.evictUntrack pf id) :=
  hidden_modify fun _ => rfl

theorem hidden_diskTouch (id : CacheId) (force : Bool) :
    Hidden State.shared (DiskCache.evictTouch pf id force) :=
  .bind hidden_tick fun _ => hidden_ite (hidden_modifyGet fun _ => rfl) (hidden_pure _)

theorem hidden_diskRelease (h : Option EvictionHandle) :
    Hidden State.shared (DiskCache.evictRelease h) := hidden_modify fun _ => rfl

theorem hidden_diskEvictFor (id : CacheId) (size : Nat) :
    Hidden State.shared (DiskCache.evictFor pf id size) :=
  .bind (hidden_modifyGet fun _ => rfl) fun _ => .bind (hidden_emit _) fun _ => hidden_pure _

theorem hidden_newBlockItem : Hidden State.shared (DiskCache.newBlockItem pf) := by
  refine .bind (hidden_zoom fun _ _ => rfl) fun o => ?_
  cases o with
  | none => exact hidden_pure _
  | some id =>
      exact .bind hidden_tick fun _ => .bind (hidden_modify fun _ => rfl) fun _ => hidden_pure _

theorem hidden_newBlockSegment (offset size : Nat) (buf : IOBuf) (urgent : Bool) :
    Hidden State.shared (MemCache.newBlockSegment pf offset size buf urgent) := by
  refine hidden_modifyGet fun s => ?_
  dsimp only
  split <;> rfl

theorem hidden_alignIobuf (buf : IOBuf) : Hidden State.shared (BlockFile.alignIobuf pf buf) :=
  .bind hidden_tick fun _ => hidden_ite (hidden_pure _) (hidden_pure _)

theorem hidden_transferOut (pos : FilePos) (data : IOBuf) :
    Hidden State.shared (BlockFile.transferOut pf pos data) := by
  refine .bind hidden_tick fun n => ?_
  split
  next => exact hidden_pure _
  next => exact .bind (hidden_modify fun _ => rfl) fun _ => hidden_pure _

theorem hidden_fileWrite (pos : FilePos) (buf : IOBuf) :
    Hidden State.shared (BlockFile.write pf pos buf) := by
  refine .bind hidden_tick fun n => hidden_ite (hidden_transferOut pos buf) ?_
  refine .bind (hidden_alignIobuf buf) fun o => ?_
  cases o with
  | none => exact hidden_pure _
  | some data => exact hidden_transferOut pos data

theorem hidden_locate (id : BlockId) (offset : Nat) :
    Hidden State.shared (DiskCache.locate pf id offset) :=
  .bind hidden_read fun _ => .bind (hidden_deref _) fun _ => .bind (hidden_require _) fun _ =>
    .bind (hidden_deref _) fun _ => hidden_pure _

theorem hidden_writeDisk (id : BlockId) (seg : BlockSegment) :
    Hidden State.shared (DiskCache.writeBlock pf id seg) := by
  refine .bind hidden_read fun s => hidden_ite (hidden_pure _) (hidden_ite (hidden_pure _) ?_)
  refine .bind (hidden_when ?_) fun _ => .bind (hidden_locate id _) fun pos =>
    hidden_fileWrite pos _
  refine .bind ?_ fun _ => hidden_modify fun _ => rfl
  exact .bind (hidden_require _) fun _ => hidden_require _

theorem hidden_writeSegments (id : BlockId) (segs : List BlockSegment) :
    Hidden State.shared (writeSegments pf id segs) :=
  hidden_forUntil fun seg => hidden_writeDisk id seg

theorem hidden_getBlock (r : ItemRef) (i : Nat) : Hidden State.shared (getBlock r i) :=
  .bind hidden_read fun _ => hidden_deref _

end Hidden

/-! ## Actions -/

namespace Concurrent

open Thread (Mirrors Solo)

variable {pf : Platform} {α β : Type} {s : State} {id : CacheId} {r : ItemRef} {i : Nat}

/-- The thread does what the program does. -/
abbrev Follows (pf : Platform) (m : Op β) (f : Prog State α) (g : α → State → β) (s : State) :
    Prop := Mirrors (effect pf.flags) State.shared m f g s

/-- The input that answers a question. -/
def Input.answering (q : Question) (a : q.Answer) : Input := Function.update Input.refusing q a

theorem effect_ask {flags : Flags} (q : Question) (a : q.Answer) (s : Shared) :
    effect flags (.ask q) (.answering q a) s = some (a, s) :=
  congrArg (fun x => some (x, s)) (Function.update_self q a Input.refusing)

theorem follows_ask {q : Question} {f : Prog State q.Answer} (hf : Hidden State.shared f)
    (s : State) : Follows pf (perform (.ask q)) f (fun a _ => a) s :=
  Thread.mirrors_perform fun a t hrun => ⟨.answering q a, by rw [effect_ask, hf s a t hrun]⟩

theorem follows_scope {m : Op β} {body : Prog State α} {g : α → β}
    (h : Follows pf m body (fun a _ => g a) s) :
    Follows pf m (scope pf body) (fun a _ => g a) s := by
  refine .read (.last h (fun a => ?_) fun a t b u _ hend => ?_)
  · exact .bind (hidden_modify fun _ => rfl) fun _ => .bind hidden_collect fun _ => hidden_pure a
  · obtain ⟨_, _, _, hend⟩ := bind_eq_some.mp hend
    obtain ⟨_, _, _, hend⟩ := bind_eq_some.mp hend
    cases hend
    rfl

/-! ### Items -/

theorem shared_updateItem {item : CacheItem} (s : State) (r : ItemRef) :
    State.shared { s with items := Function.update s.items r item } =
      s.shared.updateItem r item.unpinned :=
  congrArg (fun items => (⟨s.find, items, s.itemCount⟩ : Shared))
    (Function.comp_update CacheItem.unpinned s.items r item)

/-- An action on an item that does not depend on whether it is pinned. -/
theorem follows_update {e : Atom} {b : e.Answer} {F : CacheItem → CacheItem}
    (hF : ∀ item, (F item).unpinned = F item.unpinned)
    (heffect : ∀ input sh, effect pf.flags e input sh =
      some (b, sh.updateItem r (F (sh.items r)))) (s : State) :
    Follows pf (perform e) (do updateItem r F; collect pf) (fun _ _ => b) s := by
  refine .last (g := fun _ _ => b) (Thread.mirrors_perform fun _ t hrun => ?_)
    (fun _ => hidden_collect) fun _ _ _ _ _ _ => rfl
  cases hrun
  refine ⟨.refusing, ?_⟩
  rw [heffect, shared_updateItem, hF]
  rfl

/-- The same of an action that answers what it has done. -/
theorem follows_change {e : Atom} {h : e.Answer = Bool} {F : CacheItem → Bool × CacheItem}
    (hF : ∀ item, F item.unpinned = ((F item).1, (F item).2.unpinned))
    (heffect : ∀ input sh, effect pf.flags e input sh =
      some (cast h.symm (F (sh.items r)).1, sh.updateItem r (F (sh.items r)).2)) (s : State) :
    Follows pf (perform e) (do
      let s ← read
      let result := F (s.items r)
      updateItem r fun _ => result.2
      pure result.1) (fun b _ => cast h.symm b) s := by
  refine Thread.mirrors_perform fun b t hrun => ⟨.refusing, ?_⟩
  cases hrun
  rw [heffect, shared_updateItem]
  have heq : F (s.shared.items r) = ((F (s.items r)).1, (F (s.items r)).2.unpinned) := hF _
  rw [heq]

theorem follows_setMemBlock (block : Option MemBlockItem) (s : State) :
    Follows pf (perform (.setMemBlock r i block)) (setMemBlock pf r i block) (fun _ _ => ()) s :=
  follows_update (F := fun item => item.updateBlock i fun b => { b with memBlockItem := block })
    (fun _ => rfl) (fun _ _ => rfl) s

theorem follows_setDiskBlock (d : BlockId) (s : State) :
    Follows pf (perform (.setDiskBlock r i d)) (setDiskBlock pf r i d) (fun _ _ => ()) s :=
  follows_update (F := fun item => item.updateBlock i fun b => { b with diskBlockItem := some d })
    (fun _ => rfl) (fun _ _ => rfl) s

theorem follows_clearBlock (s : State) :
    Follows pf (perform (.clearBlock r i)) (clearBlock pf r i) (fun _ _ => ()) s :=
  follows_update (F := fun item => item.updateBlock i fun _ => {}) (fun _ => rfl)
    (fun _ _ => rfl) s

theorem follows_clearDiskBlocks (s : State) :
    Follows pf (perform (.clearDiskBlocks r)) (clearDiskBlocks pf r) (fun _ _ => ()) s :=
  follows_update (F := CacheItem.clearDiskBlocks) (fun _ => rfl)
    (fun _ _ => rfl) s

theorem follows_releaseIfEmpty (s : State) :
    Follows pf (perform (.releaseIfEmpty id r)) (releaseIfEmpty r) (fun b _ => b) s := by
  refine follows_change (h := rfl) (F := CacheItem.releaseIfEmpty) (fun item => ?_)
    (fun _ _ => rfl) s
  unfold CacheItem.releaseIfEmpty CacheItem.unpinned
  dsimp only
  split
  next => rfl
  next => split <;> rfl

theorem follows_setReleased (s : State) :
    Follows pf (perform (.setReleased id r)) (setReleased r true) (fun b _ => b) s :=
  follows_change (h := rfl) (F := fun item => item.setReleased true) (fun _ => rfl)
    (fun _ _ => rfl) s

theorem getBlock_cases {block : BlockItem} {t : State} (h : getBlock r i s = some (block, t)) :
    (s.items r).blocks[i]? = some block ∧ t = s := by
  obtain ⟨_, _, hread, h⟩ := bind_eq_some.mp h
  cases hread
  obtain ⟨_, hb, heq⟩ := Option.map_eq_some_iff.mp h
  cases heq
  exact ⟨hb, rfl⟩

theorem effect_getBlock {flags : Flags} {block : BlockItem}
    (h : (s.items r).blocks[i]? = some block) :
    effect flags (.getBlock r i) .refusing s.shared = some (block, s.shared) :=
  congrArg (Option.map fun b => (b, s.shared)) h

theorem follows_getBlock (s : State) :
    Follows pf (perform (.getBlock r i)) (getBlock r i) (fun b _ => b) s := by
  refine Thread.mirrors_perform fun b t hrun => ⟨.refusing, ?_⟩
  obtain ⟨hb, rfl⟩ := getBlock_cases hrun
  exact effect_getBlock hb

/-! ### The index -/

theorem follows_remove (s : State) :
    Follows pf (perform (.remove id r)) (indexRemove pf id r) (fun _ _ => ()) s := by
  refine .last (g := fun _ _ => ()) (Thread.mirrors_perform fun _ t hrun => ?_)
    (fun _ => .bind (hidden_emit _) fun _ => hidden_collect) fun _ _ _ _ _ _ => rfl
  cases hrun
  refine ⟨.refusing, congrArg (fun index => some ((), (⟨index, s.shared.items, _⟩ : Shared))) ?_⟩
  funext id'
  by_cases hid : id' = id
  · rw [hid, Function.update_self]
    exact (AList.lookup_erase id s.accessIndex).symm
  · rw [Function.update_of_ne hid]
    exact (AList.lookup_erase_ne hid).symm

theorem follows_insert (s : State) :
    Follows pf (perform (.insert id r)) (indexInsert pf id r) (fun _ _ => ()) s := by
  refine .last (g := fun _ _ => ()) (Thread.mirrors_perform fun _ t hrun => ?_)
    (fun _ => .bind (hidden_emit _) fun _ => hidden_collect) fun _ _ _ _ _ _ => rfl
  cases hrun
  refine ⟨.refusing, congrArg (fun index => some ((), (⟨index, s.shared.items, _⟩ : Shared))) ?_⟩
  funext id'
  by_cases hid : id' = id
  · rw [hid, Function.update_self]
    exact (AList.lookup_insert s.accessIndex).symm
  · rw [Function.update_of_ne hid]
    exact (AList.lookup_insert_ne hid).symm

/-! ## Removal -/

theorem hidden_blockIndexes (count : Nat) : Hidden State.shared (blockIndexes count) :=
  .bind (hidden_require _) fun _ => hidden_pure _

theorem blockIndexes_cases {count : Nat} {indexes : List Nat} {t : State}
    (h : blockIndexes count s = some (indexes, t)) :
    count < 4294967296 ∧ indexes = List.range count ∧ t = s := by
  unfold blockIndexes at h
  obtain ⟨_, _, hrequire, h⟩ := bind_eq_some.mp h
  unfold require at hrequire
  split at hrequire
  next hlt =>
    cases hrequire
    cases h
    exact ⟨hlt, rfl, rfl⟩
  next => cases hrequire

theorem follows_removeCacheItem (s : State) :
    Follows pf (removeCacheItem pf id r) (StarCacheImpl.removeCacheItem pf id r)
      (fun _ _ => ()) s := by
  refine (follows_remove s).bind fun _ t _ => .read ?_
  refine .ask (i := .refusing) rfl (.hidden (hidden_blockIndexes _) fun indexes u hrun => ?_)
  obtain ⟨hlt, rfl, hu⟩ := blockIndexes_cases hrun
  have hsmall : ¬ 4294967296 ≤ blockCountOf pf.flags (t.items r).size := Nat.not_le.mpr hlt
  have hrange : List.range (min (blockCountOf pf.flags (t.items r).size) 4294967296) =
      List.range ((t.items r).blockCount pf.flags) :=
    congrArg List.range (Nat.min_eq_left (Nat.le_of_lt hlt))
  refine .bind (g := fun _ _ => ()) ?_ fun _ v _ => ?_
  · show Follows pf (Thread.forEach (List.range (min (blockCountOf pf.flags (t.items r).size) _)) _)
      _ _ u
    rw [hrange]
    refine Thread.mirrors_forEach (fun i w => ?_) u
    refine .hidden (hidden_lock _ _) fun _ _ _ => .hidden (hidden_getBlock _ _) fun _ x _ => ?_
    exact (follows_clearBlock x).last
      (fun _ => .bind (hidden_memUntrack _) fun _ => hidden_unlock _ _) fun _ _ _ _ _ _ => rfl
  · show Follows pf (Thread.when (decide (4294967296 ≤ blockCountOf pf.flags (t.items r).size)) _)
      _ _ v
    rw [decide_eq_false hsmall]
    exact Thread.mirrors_hidden (hidden_diskUntrack _) fun _ _ _ => rfl

/-! ## Disk eviction -/

theorem follows_processEvictedDiskItem (s : State) :
    Follows pf (do
        perform (.clearDiskBlocks r)
        let released ← perform (.releaseIfEmpty id r)
        Thread.when released (removeCacheItem pf id r))
      (StarCacheImpl.processEvictedDiskItem pf id r) (fun _ _ => ()) s := by
  refine follows_scope (g := fun _ => ()) (.hidden (hidden_hold _) fun _ _ _ =>
    .hidden (hidden_emit _) fun _ t _ => (follows_clearDiskBlocks t).bind fun _ u _ =>
      (follows_releaseIfEmpty u).bind fun released v _ => ?_)
  cases released with
  | true => exact follows_removeCacheItem v
  | false => exact Thread.mirrors_pure rfl

theorem follows_processEvictedDiskItems (ids : List CacheId) (s : State) :
    Follows pf (processEvictedDiskItems pf ids) (StarCacheImpl.processEvictedDiskItems pf ids)
      (fun _ _ => ()) s := by
  induction ids generalizing s with
  | nil => exact Thread.mirrors_pure rfl
  | cons id rest ih =>
      refine .read (.ask (i := .refusing) (r := s.find id) rfl ?_)
      cases s.find id with
      | none => exact Thread.mirrors_hidden (hidden_emit _) fun _ _ _ => rfl
      | some r => exact (follows_processEvictedDiskItem s).bind fun _ t _ => ih t

theorem follows_evictForDiskBlock (cacheId : CacheId) (size : Nat) (s : State) :
    Follows pf (evictForDiskBlock pf) (StarCacheImpl.evictForDiskBlock pf cacheId size)
      (fun _ _ => ()) s :=
  (follows_ask (q := .diskEvicted) (hidden_diskEvictFor _ _) s).bind fun ids t _ =>
    follows_processEvictedDiskItems ids t

theorem follows_allocDiskBlock (key : BlockKey) (s : State) :
    Follows pf (allocDiskBlock pf) (StarCacheImpl.allocDiskBlock pf key) (fun o _ => o) s := by
  refine (Thread.mirrors_retry (g := fun a _ => a) (fun _ t => ?_)
    (fun t => follows_evictForDiskBlock _ _ t) _ 0 s).congr fun o _ _ => Option.map_id'.symm
  exact (follows_ask (q := .diskBlock) hidden_newBlockItem t).congr fun o _ _ => Option.map_id'

/-! ## Flush -/

theorem follows_flushToDisk (key : BlockKey) (refs : List SegmentRef) (disk : Option BlockId)
    (s : State) : Follows pf (flushToDisk pf r key.blockIndex disk)
      (StarCacheImpl.flushToDisk pf r key refs disk) (fun st _ => st) s := by
  cases disk with
  | some d =>
      refine .hidden (hidden_lock _ _) fun _ t _ => .read ?_
      refine .hidden (hidden_writeSegments _ _) fun st u _ => .ask (effect_ask .diskWrite st _) ?_
      split
      next =>
        exact (follows_setDiskBlock d u).bind fun _ v _ =>
          .hidden (hidden_unlock _ _) fun _ _ _ => Thread.mirrors_pure rfl
      next => exact .hidden (hidden_unlock _ _) fun _ _ _ => Thread.mirrors_pure rfl
  | none =>
      refine (follows_allocDiskBlock key s).bind fun o t _ => ?_
      cases o with
      | none => exact Thread.mirrors_pure rfl
      | some d =>
          refine follows_scope (g := fun st => st) (.hidden (hidden_hold _) fun _ u _ => .read ?_)
          refine .hidden (hidden_writeSegments _ _) fun st v _ =>
            .ask (effect_ask .diskWrite st _) ?_
          split
          next =>
            exact .hidden (hidden_lock _ _) fun _ w _ => (follows_setDiskBlock d w).bind
              fun _ x _ => .hidden (hidden_unlock _ _) fun _ _ _ => Thread.mirrors_pure rfl
          next => exact Thread.mirrors_pure rfl

theorem follows_flushBlockSegments (key : BlockKey) (refs : List SegmentRef) (s : State) :
    Follows pf (flushBlockSegments pf r key.blockIndex)
      (StarCacheImpl.flushBlockSegments pf r key refs) (fun st _ => st) s := by
  refine .hidden (hidden_lock _ _) fun _ t _ => (follows_getBlock t).bind fun block u _ =>
    .hidden (hidden_unlock _ _) fun _ v _ => ?_
  refine (follows_flushToDisk key refs block.diskBlockItem v).bind fun st w _ => .read ?_
  refine .hidden (hidden_when (hidden_emit _)) fun _ x _ => ?_
  refine .hidden (hidden_lock _ _) fun _ y _ => ?_
  exact (follows_setMemBlock none y).bind fun _ z _ => .hidden (hidden_unlock _ _) fun _ _ _ =>
    Thread.mirrors_pure rfl

theorem follows_deleteBlock (key : BlockKey) (s : State) :
    Follows pf (deleteBlock pf r key) (StarCacheImpl.deleteBlock pf r key) (fun _ _ => ()) s := by
  refine .hidden (hidden_emit _) fun _ t _ => .hidden (hidden_lock _ _) fun _ u _ => ?_
  refine (follows_clearBlock u).bind fun _ v _ => .hidden (hidden_unlock _ _) fun _ w _ => ?_
  refine (follows_releaseIfEmpty w).bind fun released x _ => ?_
  cases released with
  | true =>
      exact (follows_removeCacheItem x).last (fun _ => hidden_pure _) fun _ _ _ _ _ _ => rfl
  | false => exact Thread.mirrors_pure rfl

section Runtime

variable {rt : Runtime}

theorem follows_flushTouched (key : BlockKey) (tracked : Bool) (s : State) :
    Follows rt.toPlatform (do
        let block ← perform (.getBlock r key.blockIndex)
        if block.memBlockItem.isNone then pure ()
        else
          match ← perform (.ask .flushAdmission) with
          | .skip => pure ()
          | .delete => deleteBlock rt.toPlatform r key
          | .flush => do
              let block ← perform (.getBlock r key.blockIndex)
              let whole ← perform (.ask .whole)
              if block.diskBlockItem.isNone && !whole then deleteBlock rt.toPlatform r key
              else do
                let _ ← flushBlockSegments rt.toPlatform r key.blockIndex
                pure ())
      (StarCacheImpl.flushTouched rt r key tracked) (fun _ _ => ()) s := by
  refine (follows_getBlock s).bind fun block t hblock => ?_
  obtain ⟨hblock, rfl⟩ := getBlock_cases hblock
  cases hmem : block.memBlockItem with
  | none => exact Thread.mirrors_pure rfl
  | some memBlock =>
      refine .hidden (hidden_hold _) fun _ u hu => .hidden hidden_tick fun n v hv => .read ?_
      cases hu
      have hitems : v.items = _ := congrArg (fun x => State.items x.2) (Option.some.inj hv).symm
      rw [← hitems] at hblock
      dsimp only [Option.isNone_some]
      rw [if_neg Bool.false_ne_true]
      refine .ask (effect_ask .flushAdmission (flushAdmission rt n v (v.items r) key) _) ?_
      cases flushAdmission rt n v (v.items r) key with
      | skip =>
          exact .hidden (hidden_when (hidden_memTrack _ _)) fun _ _ _ => Thread.mirrors_pure rfl
      | delete => exact follows_deleteBlock key v
      | flush =>
          refine .require fun _ => .ask (effect_getBlock hblock) ?_
          by_cases hwhole : block.diskBlockItem = none ∧ continuousSegmentsSize
              (memBlock.listSegments.map v.segments) 0 ≠
                (v.items r).blockSize rt.flags key.blockIndex
          · refine .ask (effect_ask .whole false _) ?_
            rw [if_pos hwhole, if_pos (by rw [hwhole.1]; rfl)]
            exact follows_deleteBlock key v
          · refine .ask (effect_ask .whole true _) ?_
            rw [if_neg hwhole, if_neg (by simp)]
            refine (follows_flushBlockSegments key _ v).bind fun st x _ => ?_
            exact Thread.mirrors_hidden
              (.bind (hidden_when (hidden_diskTrack _ _)) fun _ => hidden_pure _) fun _ _ _ => rfl

theorem follows_flushBlock (key : BlockKey) (s : State) :
    Follows rt.toPlatform (flushBlock rt.toPlatform r key) (StarCacheImpl.flushBlock rt r key)
      (fun _ _ => ()) s := by
  refine .read (.ask (i := .refusing) rfl ?_)
  show Follows _ (if (s.items r).released = true then _ else _) _ _ _
  split
  next => exact Thread.mirrors_pure rfl
  next =>
    refine .hidden (hidden_diskTouch _ _) fun handle t _ => ?_
    refine .last (g := fun _ _ => ()) (follows_scope (g := fun _ => ())
      (follows_flushTouched key _ t)) (fun _ => ?_) fun _ _ _ _ _ _ => rfl
    exact .bind (hidden_diskRelease _) fun _ => hidden_pure _

/-! ## Memory eviction -/

theorem updateItem_self (sh : Shared) (r : ItemRef) : sh.updateItem r (sh.items r) = sh :=
  congrArg (fun items => (⟨sh.index, items, sh.itemCount⟩ : Shared)) (Function.update_eq_self ..)

/-- There is nothing to drop. -/
theorem effect_dropNone {flags : Flags} {sh : Shared} {block : BlockItem}
    (hblock : (sh.items r).blocks[i]? = some block) (hmem : block.memBlockItem = none) :
    effect flags (.dropMemBlock r i) .refusing sh = some (false, sh) := by
  obtain ⟨_, d⟩ := block
  cases hmem
  have heq : dropMemBlock (sh.items r) i = (false, sh.items r) := by
    unfold dropMemBlock
    rw [hblock]
  show some ((dropMemBlock (sh.items r) i).1, sh.updateItem r (dropMemBlock (sh.items r) i).2) = _
  rw [heq, updateItem_self]

theorem dropMemBlock_some {item : CacheItem} {block : BlockItem} {memBlock : MemBlockItem}
    (hblock : item.blocks[i]? = some block) (hmem : block.memBlockItem = some memBlock) :
    dropMemBlock item i =
      if memBlock.state = .dirty ∨ block.diskBlockItem = none then (true, item)
      else (false, item.updateBlock i fun b => { b with memBlockItem := none }) := by
  obtain ⟨_, d⟩ := block
  cases hmem
  unfold dropMemBlock
  rw [hblock]

/-- The block has to be flushed. -/
theorem effect_dropFlush {flags : Flags} {sh : Shared} {block : BlockItem} {memBlock : MemBlockItem}
    (hblock : (sh.items r).blocks[i]? = some block) (hmem : block.memBlockItem = some memBlock)
    (hflush : memBlock.state = .dirty ∨ block.diskBlockItem = none) :
    effect flags (.dropMemBlock r i) .refusing sh = some (true, sh) := by
  show some ((dropMemBlock (sh.items r) i).1, sh.updateItem r (dropMemBlock (sh.items r) i).2) = _
  rw [dropMemBlock_some hblock hmem, if_pos hflush, updateItem_self]

/-- The block is on disk as it is. -/
theorem follows_dropMemBlock {block : BlockItem} {memBlock : MemBlockItem}
    (hblock : (s.items r).blocks[i]? = some block) (hmem : block.memBlockItem = some memBlock)
    (hclean : ¬ (memBlock.state = .dirty ∨ block.diskBlockItem = none)) :
    Follows pf (perform (.dropMemBlock r i)) (setMemBlock pf r i none) (fun _ _ => false) s := by
  refine .last (g := fun _ _ => false) (Thread.mirrors_perform fun _ t hrun => ?_)
    (fun _ => hidden_collect) fun _ _ _ _ _ _ => rfl
  cases hrun
  refine ⟨.refusing, ?_⟩
  show some ((dropMemBlock (s.shared.items r) i).1,
    s.shared.updateItem r (dropMemBlock (s.shared.items r) i).2) = _
  have hdrop : dropMemBlock (s.shared.items r) i = (false, (s.shared.items r).updateBlock i
      fun b => { b with memBlockItem := none }) :=
    (@dropMemBlock_some i (s.shared.items r) _ _ hblock hmem).trans (if_neg hclean)
  rw [hdrop, shared_updateItem]
  rfl

theorem follows_processEvictedMemItem (key : BlockKey) (s : State) :
    Follows rt.toPlatform (do
        let item ← perform (.getItem r)
        if blockCountOf rt.flags item.2 ≤ key.blockIndex then pure ()
        else do
          let flush ← perform (.dropMemBlock r key.blockIndex)
          Thread.when flush (flushBlock rt.toPlatform r key))
      (StarCacheImpl.processEvictedMemItem rt key r) (fun _ _ => ()) s := by
  refine follows_scope (g := fun _ => ()) (.hidden (hidden_hold _) fun _ t _ =>
    .hidden (hidden_lock _ _) fun _ u _ => .read (.ask (i := .refusing) rfl ?_))
  show Follows _ (if blockCountOf rt.flags (u.items r).size ≤ key.blockIndex then _ else _)
    (if blockCountOf rt.flags (u.items r).size ≤ key.blockIndex then _ else _) _ _
  split
  next => exact Thread.mirrors_hidden (hidden_unlock _ _) fun _ _ _ => rfl
  next =>
    refine .hidden (hidden_getBlock _ _) fun block v hget => ?_
    obtain ⟨hblock, rfl⟩ := getBlock_cases hget
    cases hmem : block.memBlockItem with
    | none =>
        exact .ask (effect_dropNone hblock hmem)
          (Thread.mirrors_hidden (hidden_unlock _ _) fun _ _ _ => rfl)
    | some memBlock =>
        refine .hidden (hidden_hold _) fun _ w hw => ?_
        cases hw
        dsimp only
        split
        next hflush =>
          refine .ask (effect_dropFlush hblock hmem hflush) ?_
          refine .hidden (hidden_unlock _ _) fun _ x _ => ?_
          exact (follows_flushBlock key x).last (fun _ => hidden_pure _) fun _ _ _ _ _ _ => rfl
        next hclean =>
          refine .bind (follows_dropMemBlock hblock hmem hclean) fun _ x _ => ?_
          exact Thread.mirrors_hidden (hidden_unlock _ _) fun _ _ _ => rfl

theorem follows_processEvictedMemBlock (key : BlockKey) (s : State) :
    Follows rt.toPlatform (processEvictedMemBlock rt.toPlatform key)
      (StarCacheImpl.processEvictedMemBlock rt key) (fun _ _ => ()) s := by
  refine .read (.ask (i := .refusing) (r := s.find key.cacheId) rfl ?_)
  cases s.find key.cacheId with
  | none => exact Thread.mirrors_pure rfl
  | some r => exact follows_processEvictedMemItem key s

theorem follows_evictMemBlock {evict : Prog State (List BlockKey)}
    (hevict : Hidden State.shared evict) (s : State) :
    Follows rt.toPlatform (evictMemBlock rt.toPlatform)
      (evict >>= StarCacheImpl.processEvictedMemBlocks rt) (fun _ _ => ()) s :=
  (follows_ask (q := .memEvicted) hevict s).bind fun _ t _ =>
    Thread.mirrors_forEach (fun key u => follows_processEvictedMemBlock key u) t

/-! ## Writes -/

theorem follows_newCacheItem (cacheKey : CacheKey) (size now ttlSeconds : Nat) (urgent : Bool)
    (s : State) : Follows rt.toPlatform (perform (.newCacheItem cacheKey size ttlSeconds))
      (MemCache.newCacheItem rt.toPlatform cacheKey size (u64 (now + ttlSeconds)) urgent)
      (fun o _ => o) s := by
  refine Thread.mirrors_perform fun o t hrun => ?_
  unfold MemCache.newCacheItem Prog.modifyGet at hrun
  dsimp only at hrun
  split at hrun
  next =>
    cases hrun
    refine ⟨Function.update (Input.answering .itemRoom true) .monotonicTime now, ?_⟩
    show some (some s.itemCount, (⟨s.find, Function.update s.shared.items s.itemCount
      (.new rt.flags cacheKey size (u64 ((now + ttlSeconds : Nat) : Int))), _⟩ : Shared)) = _
    rw [Int.natCast_add]
    exact congrArg
      (fun items => some (some s.itemCount, (⟨s.find, items, s.itemCount + 1⟩ : Shared)))
      (Function.comp_update CacheItem.unpinned s.items s.itemCount
        (.new rt.flags cacheKey size (u64 (now + ttlSeconds)))).symm
  next =>
    cases hrun
    exact ⟨.refusing, rfl⟩

theorem follows_allocCacheItem (cacheKey : CacheKey) (size now ttlSeconds : Nat) (s : State) :
    Follows rt.toPlatform (allocCacheItem rt.toPlatform cacheKey size ttlSeconds)
      (StarCacheImpl.allocCacheItem rt cacheKey size (u64 (now + ttlSeconds)))
      (fun o _ => o) s := by
  refine (Thread.mirrors_retry (g := fun a _ => a) (fun i t => ?_)
    (fun t => follows_evictMemBlock (hidden_memEvict _) t) _ 0 s).congr fun o _ _ =>
      Option.map_id'.symm
  exact (follows_newCacheItem cacheKey size now ttlSeconds _ t).congr fun o _ _ => Option.map_id'

/-- The slices of a new block with the segment, if they fit. -/
def slicesOf (flags : Flags) (g : SegmentRef) (s : State) : List (Option SegmentRef) :=
  (MemCache.writeSegment flags s.segments (.new flags .dirty) g).elim [] MemBlockItem.slices

theorem writeSegment_state {flags : Flags} {segments : SegmentRef → BlockSegment}
    {block block' : MemBlockItem} {g : SegmentRef}
    (h : MemCache.writeSegment flags segments block g = some block') :
    block'.state = block.state := by
  unfold MemCache.writeSegment MemBlockItem.setBlockSegment at h
  dsimp only at h
  split_ifs at h <;> cases h <;> rfl

theorem writeNew_cases {g : SegmentRef} {memBlock : MemBlockItem} {s t : State}
    (h : MemCache.writeBlock rt.toPlatform (.new rt.flags .dirty) [g] s = some (memBlock, t)) :
    memBlock = ⟨slicesOf rt.flags g s, .dirty⟩ ∧ t = s := by
  obtain ⟨_, _, hread, h⟩ := bind_eq_some.mp h
  cases hread
  obtain ⟨block, hfold, heq⟩ := Option.map_eq_some_iff.mp h
  cases heq
  rw [List.foldlM_cons] at hfold
  obtain ⟨_, hwrite, hfold⟩ := Option.bind_eq_some_iff.mp hfold
  cases hfold
  refine ⟨?_, rfl⟩
  have hstate := writeSegment_state hwrite
  unfold slicesOf
  rw [hwrite]
  obtain ⟨slices, state⟩ := memBlock
  cases hstate
  rfl

theorem follows_allocBlockSegment (key : BlockKey) (offset size : Nat) (buf : IOBuf) (s : State) :
    Follows rt.toPlatform (allocBlockSegment rt.toPlatform)
      (StarCacheImpl.allocBlockSegment rt key offset size buf)
      (fun o t => o.map (slicesOf rt.flags · t)) s := by
  refine Thread.mirrors_retry (fun i t => ?_)
    (fun t => follows_evictMemBlock (hidden_memEvictFor _ _) t) _ 0 s
  refine Thread.mirrors_perform fun o u hrun =>
    ⟨.answering .segments (o.map (slicesOf rt.flags · u)), ?_⟩
  rw [effect_ask, hidden_newBlockSegment _ _ _ _ t o u hrun]

theorem follows_writeMemBlock (key : BlockKey) (buf : IOBuf) (pinned : Bool) (s : State) :
    Follows rt.toPlatform (do
        let aligned ← perform (.ask .alignIobuf)
        if !rt.flags.enableOsPageCache && !aligned then
          pure ⟨ENOMEM, "align io buffer failed"⟩
        else
          match ← allocBlockSegment rt.toPlatform with
          | none => pure ⟨E_INTERNAL, "allocate segment failed"⟩
          | some slices => do
              perform (.setMemBlock r key.blockIndex (some ⟨slices, .dirty⟩))
              pure .OK)
      (StarCacheImpl.writeMemBlock rt r key buf pinned) (fun st _ => st) s := by
  have hbuffer : Hidden State.shared (blockBuffer rt buf) :=
    hidden_ite (hidden_pure _) (hidden_alignIobuf buf)
  refine .hidden hbuffer fun o t ho => .ask (effect_ask .alignIobuf o.isSome _) ?_
  cases o with
  | none =>
      have hdirect : rt.flags.enableOsPageCache = false := by
        unfold blockBuffer at ho
        split at ho
        next => cases ho
        next h => exact Bool.eq_false_iff.mpr h
      rw [if_pos (by rw [hdirect]; rfl)]
      exact Thread.mirrors_pure rfl
  | some sbuf =>
      rw [if_neg (by simp)]
      refine (follows_allocBlockSegment key 0 _ sbuf t).bind fun found u _ => ?_
      cases found with
      | none => exact Thread.mirrors_pure rfl
      | some g =>
          refine .hidden (.bind hidden_read fun _ => hidden_deref _) fun memBlock v hwrite => ?_
          obtain ⟨rfl, rfl⟩ := writeNew_cases hwrite
          refine .hidden (hidden_lock _ _) fun _ w _ => ?_
          refine (follows_setMemBlock _ w).bind fun _ x _ => ?_
          refine .hidden (hidden_unlock _ _) fun _ y _ => .read ?_
          exact .hidden (hidden_when (hidden_memTrack _ _)) fun _ _ _ => Thread.mirrors_pure rfl

theorem follows_writeDiskBlock (key : BlockKey) (buf : IOBuf) (pinned : Bool) (s : State) :
    Follows rt.toPlatform (do
        match ← allocDiskBlock rt.toPlatform with
        | none => pure ⟨E_INTERNAL, "allocate disk block failed"⟩
        | some id => writeVisible r key.blockIndex id)
      (StarCacheImpl.writeDiskBlock rt r key buf pinned) (fun st _ => st) s := by
  refine (follows_allocDiskBlock key s).bind fun o t _ => ?_
  cases o with
  | none => exact Thread.mirrors_pure rfl
  | some d =>
      refine follows_scope (g := fun st => st) (.hidden (hidden_hold _) fun _ u _ => ?_)
      refine .hidden (hidden_writeDisk _ _) fun st v _ => ?_
      by_cases hok : st.ok = true
      · refine .ask (effect_ask .diskWrite .OK _) ?_
        rw [if_pos hok]
        refine .hidden (hidden_lock _ _) fun _ w _ => ?_
        refine (follows_setDiskBlock d w).bind fun _ x _ => ?_
        refine .hidden (hidden_unlock _ _) fun _ y _ => .read ?_
        exact .hidden (hidden_when (hidden_diskTrack _ _)) fun _ _ _ => Thread.mirrors_pure rfl
      · refine .ask (effect_ask .diskWrite st _) ?_
        rw [if_neg hok, if_neg hok]
        exact Thread.mirrors_pure rfl

theorem follows_writeBlock (key : BlockKey) (buf : IOBuf) (options : Option WriteOptions)
    (s : State) : Follows rt.toPlatform (writeBlock rt.toPlatform r key.blockIndex)
      (StarCacheImpl.writeBlock rt r key buf options) (fun st _ => st) s := by
  refine .hidden (hidden_getBlock _ _) fun _ t _ => .hidden hidden_tick fun n u _ => .read ?_
  refine (follows_ask (q := .checkWrite) (hidden_deref _) u).bind fun location v _ => ?_
  cases location with
  | mem => exact follows_writeMemBlock key buf _ v
  | disk => exact follows_writeDiskBlock key buf _ v
  | none => exact Thread.mirrors_pure rfl

theorem hidden_setPinned (pinned : Bool) : Hidden State.shared (setPinned r pinned) := by
  refine fun s b t h => ?_
  cases h
  rw [shared_updateItem]
  exact updateItem_self s.shared r

theorem follows_writeCacheItem (cacheKey : CacheKey) (buf : IOBuf) (options : Option WriteOptions)
    (s : State) : Follows rt.toPlatform (writeCacheItem rt.toPlatform id cacheKey buf options)
      (StarCacheImpl.writeCacheItem rt id cacheKey buf options) (fun st _ => st) s := by
  refine .hidden hidden_tick fun n t _ => ?_
  refine (follows_allocCacheItem cacheKey _ _ _ t).bind fun o u _ => ?_
  cases o with
  | none => exact Thread.mirrors_undefined
  | some r =>
      refine follows_scope (g := fun st => st) (.hidden (hidden_hold _) fun _ v _ => ?_)
      have hpin : Hidden State.shared (do let _ ← setPinned r true) :=
        .bind (hidden_setPinned true) fun _ => hidden_pure ()
      refine .hidden (hidden_when hpin) fun _ w _ => ?_
      refine (Thread.mirrors_forUntil (fun i x => follows_writeBlock ⟨id, i⟩ _ options x) w).bind
        fun st x _ => ?_
      split
      next =>
        refine .require fun hend => ?_
        rw [decide_eq_false hend]
        exact (follows_insert x).bind fun _ y _ => Thread.mirrors_pure rfl
      next => exact Thread.mirrors_pure rfl

/-! ## Calls -/

theorem follows_set (cacheKey : CacheKey) (buf : IOBuf) (options : Option WriteOptions)
    (s : State) : Follows rt.toPlatform (set rt.toPlatform cacheKey buf options)
      (StarCacheImpl.set rt cacheKey buf options) (fun st _ => st) s := by
  unfold set StarCacheImpl.set
  refine .read ?_
  split
  next => exact Thread.mirrors_pure rfl
  next =>
    by_cases hbusy : rt.flags.maxConcurrentWrites < s.concurrentWrites + 1
    · refine .ask (effect_ask .busy true _) ?_
      rw [if_pos hbusy]
      exact Thread.mirrors_pure rfl
    · refine .ask (effect_ask .busy false _) ?_
      rw [if_neg hbusy]
      refine .hidden (hidden_modify fun _ => rfl) fun _ t ht => ?_
      have hfind : t.find = s.find := by cases ht; rfl
      refine .last (g := fun st _ => st) (follows_scope (g := fun st => st) ?_)
        (fun _ => .bind (hidden_modify fun _ => rfl) fun _ => hidden_pure _)
        fun st u st' v _ hend => ?_
      · refine .ask (i := .refusing) (r := t.find (rt.cachekey2id cacheKey)) rfl ?_
        rw [hfind]
        cases s.find (rt.cachekey2id cacheKey) with
        | none => exact follows_writeCacheItem cacheKey buf options t
        | some r =>
            dsimp only
            by_cases hoverwrite : options.all (·.overwrite) = true
            · rw [if_pos hoverwrite, if_pos hoverwrite]
              refine .hidden (hidden_hold _) fun _ u _ => (follows_removeCacheItem u).bind
                fun _ v _ => ?_
              exact follows_writeCacheItem cacheKey buf options v
            · rw [if_neg hoverwrite, if_neg hoverwrite]
              exact .hidden (hidden_hold _) fun _ u _ => Thread.mirrors_pure rfl
      · obtain ⟨_, _, _, hend⟩ := bind_eq_some.mp hend
        cases hend
        rfl

/-- A removal that has found its object. -/
theorem follows_removeFound (s : State) :
    Follows rt.toPlatform (do
        let released ← perform (.setReleased id r)
        if released then do
          removeCacheItem rt.toPlatform id r
          pure .OK
        else pure .OK)
      (scope rt.toPlatform do
        hold (.item r)
        if ← setReleased r true then do
          StarCacheImpl.removeCacheItem rt.toPlatform id r
          pure .OK
        else pure Status.OK) (fun st _ => st) s := by
  refine follows_scope (g := fun st => st) (.hidden (hidden_hold _) fun _ t _ => ?_)
  refine (follows_setReleased t).bind fun released u _ => ?_
  cases released with
  | true => exact (follows_removeCacheItem u).bind fun _ v _ => Thread.mirrors_pure rfl
  | false => exact Thread.mirrors_pure rfl

theorem follows_removal (cacheKey : CacheKey) (s : State) :
    Follows rt.toPlatform (remove rt.toPlatform cacheKey) (StarCacheImpl.remove rt cacheKey)
      (fun st _ => st) s := by
  refine .read (.ask (i := .refusing) (r := s.find (rt.cachekey2id cacheKey)) rfl ?_)
  dsimp only
  cases s.find (rt.cachekey2id cacheKey) with
  | none => exact Thread.mirrors_pure rfl
  | some r =>
      refine .ask (i := .refusing) (r := ((s.items r).cacheKey, (s.items r).size)) rfl ?_
      by_cases hkey : (s.items r).cacheKey = cacheKey
      · rw [if_neg (not_not.mpr hkey), Option.filter_some_pos (by simpa using hkey)]
        exact follows_removeFound s
      · rw [if_pos hkey, Option.filter_some_neg (by simpa using hkey)]
        exact Thread.mirrors_pure rfl

end Runtime

end Concurrent

end StarCache
