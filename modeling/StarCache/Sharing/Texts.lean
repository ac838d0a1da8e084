import StarCache.Foundation.Texts
import StarCache.Impl.SharingCalls

/-!
# What calls insert

Only a set inserts into the index: an item that the call itself has made, under the id of its key,
and once. The other functions may be answered anything and insert nothing.
-/

namespace StarCache

namespace Sharing

open Pool Thread MachineInt

variable {su : Setup} {r : ItemRef} {key : BlockKey} {i : Nat} {id : CacheId} {m : MemRef}
  {d : DiskRef} {α : Type}

/-- An action that inserts nothing. -/
def Atom.Plain : Atom → Prop
  | .insert _ _ => False
  | _ => True

abbrev Plain (m : Op α) : Prop := m.Only Atom.Plain

/-- A loop that does not end. -/
theorem plain_endless {c : Bool} : Plain (when c (.act .endless Empty.elim)) :=
  only_when (only_act (e := Atom.endless) trivial fun x => x.elim)

/-! ## Items and blocks -/

theorem plain_isReleased : Plain (isReleased r) :=
  only_act trivial fun _ => only_act trivial fun _ => only_act trivial fun _ => only_pure

theorem plain_setReleased : Plain (setReleased r) :=
  only_act trivial fun _ => only_act trivial fun _ =>
    (only_when (only_perform trivial)).bind fun _ => only_act trivial fun _ => only_pure

theorem plain_blockHeld : Plain (blockHeld r i) := by
  refine only_act trivial fun m => ?_
  split
  · exact only_pure
  · exact only_perform trivial

theorem plain_releaseLocked : Plain (releaseLocked su r) := by
  refine only_act trivial fun released => ?_
  split
  · exact only_pure
  · refine only_act trivial fun item => (only_forUntil fun i => plain_blockHeld).bind fun held => ?_
    split
    · exact only_pure
    · exact only_act trivial fun _ => only_pure

theorem plain_releaseIfEmpty : Plain (releaseIfEmpty su r) :=
  only_act trivial fun _ => plain_releaseLocked.bind fun _ => only_act trivial fun _ => only_pure

theorem plain_clearDiskBlocks : Plain (clearDiskBlocks su r) :=
  only_act trivial fun _ => only_act trivial fun _ =>
    (only_forEach fun _ => only_perform trivial).bind fun _ => only_perform trivial

theorem plain_clearBlock : Plain (clearBlock su r key) :=
  only_act trivial fun _ => only_act trivial fun _ => only_act trivial fun _ => only_perform trivial

theorem plain_setMemBlock {x : Option MemRef} : Plain (setMemBlock su r key x) :=
  only_act trivial fun _ => only_act trivial fun _ => only_perform trivial

theorem plain_setDiskBlock : Plain (setDiskBlock su r key d) :=
  only_act trivial fun _ => only_act trivial fun _ => only_perform trivial

theorem plain_dropDiskBlock {disk : Option DiskRef} : Plain (dropDiskBlock disk) := by
  cases disk with
  | none => exact only_pure
  | some d => exact only_perform trivial

theorem plain_removeCacheItem : Plain (removeCacheItem su id r) :=
  only_act trivial fun _ => only_act trivial fun _ =>
    (only_forEach fun _ => plain_clearBlock).bind fun _ => plain_endless

/-! ## Evictions and flushes -/

theorem plain_processEvictedDiskItems : ∀ ids, Plain (processEvictedDiskItems su ids)
  | [] => only_pure
  | id :: rest => by
      refine only_act trivial fun found => ?_
      cases found with
      | none => exact only_pure
      | some r =>
          exact plain_clearDiskBlocks.bind fun _ => plain_releaseIfEmpty.bind fun _ =>
            (only_when plain_removeCacheItem).bind fun _ =>
              only_act trivial fun _ => plain_processEvictedDiskItems rest

theorem plain_evictForDiskBlock : Plain (evictForDiskBlock su) :=
  only_act trivial fun evicted => plain_processEvictedDiskItems evicted

theorem plain_allocDiskBlock : Plain (allocDiskBlock su r i) :=
  only_retry (only_perform trivial) plain_evictForDiskBlock _

theorem plain_listSlices : ∀ ks acc, Plain (listSlices m ks acc)
  | [], _ => only_pure
  | _ :: rest, _ => only_act trivial fun _ => plain_listSlices rest _

theorem plain_getSegments : ∀ refs, Plain (getSegments refs)
  | [] => only_pure
  | _ :: rest => only_act trivial fun _ => (plain_getSegments rest).bind fun _ => only_pure

theorem plain_writeSegments : ∀ segs, Plain (writeSegments d segs)
  | [] => only_pure
  | seg :: rest => by
      refine only_act trivial fun st => ?_
      split
      · exact plain_writeSegments rest
      · exact only_pure

theorem plain_flushToDisk {segs : List BlockSegment} (disk : Option DiskRef) :
    Plain (flushToDisk su r key segs disk) := by
  cases disk with
  | none =>
      refine only_act trivial fun item => only_act trivial fun _ =>
        plain_allocDiskBlock.bind fun disk => ?_
      cases disk with
      | none => exact only_pure
      | some d =>
          exact (plain_writeSegments segs).bind fun st => (only_when plain_setDiskBlock).bind fun _ =>
            only_act trivial fun _ => only_pure
  | some d =>
      exact only_act trivial fun _ => (plain_writeSegments segs).bind fun st =>
        (only_when (only_perform trivial)).bind fun _ => only_act trivial fun _ =>
          only_act trivial fun _ => only_pure

theorem plain_deleteBlock : Plain (deleteBlock su r key) :=
  plain_clearBlock.bind fun _ => plain_releaseIfEmpty.bind fun _ => only_when plain_removeCacheItem

theorem plain_flushAdmitted : Plain (flushAdmitted su r key m) := by
  refine (plain_listSlices _ _).bind fun refs => (plain_getSegments refs).bind fun segs =>
    only_act trivial fun present => only_act trivial fun item => ?_
  split
  · exact plain_deleteBlock
  · refine Only.bind ?_ fun _ => only_pure
    exact only_act trivial fun _ => only_act trivial fun disk => only_act trivial fun _ =>
      (plain_flushToDisk disk).bind fun _ => plain_setMemBlock.bind fun _ => only_pure

theorem plain_flushBlock : Plain (flushBlock su r key) := by
  refine plain_isReleased.bind fun released => ?_
  split
  · exact only_pure
  · refine only_act trivial fun mem => ?_
    cases mem with
    | none => exact only_pure
    | some m =>
        refine only_act trivial fun admission => ?_
        cases admission with
        | skip => exact only_pure
        | delete => exact plain_deleteBlock
        | flush => exact plain_flushAdmitted

theorem plain_dropMemBlock : Plain (dropMemBlock r i) := by
  refine only_act trivial fun mem => ?_
  cases mem with
  | none => exact only_pure
  | some m =>
      refine only_act trivial fun state => ?_
      split
      · exact only_pure
      · refine only_act trivial fun present => ?_
        split
        · exact only_act trivial fun _ => only_pure
        · exact only_pure

theorem plain_evictMemBlock : Plain (evictMemBlock su) := by
  refine only_act trivial fun evicted => only_forEach fun key => only_act trivial fun found => ?_
  cases found with
  | none => exact only_pure
  | some r =>
      have hrest : ∀ flush, Plain (do
          unlockBlock su key
          when flush (flushBlock su r key)
          perform (.dropItem r)) := fun flush =>
        only_act trivial fun _ => (only_when plain_flushBlock).bind fun _ =>
          only_perform (e := Atom.dropItem r) trivial
      refine only_act trivial fun _ => only_act trivial fun item => ?_
      dsimp only
      split
      · exact hrest false
      · exact plain_dropMemBlock.bind hrest

theorem plain_allocBlockSegment {offset size : Nat} {buf : IOBuf} :
    Plain (allocBlockSegment su offset size buf) :=
  only_retry (only_perform trivial) plain_evictMemBlock _

/-! ## Reads -/

theorem plain_writeMem {refs : List SegmentRef} : Plain (writeMem su m refs) :=
  only_forEach fun _ => only_act trivial fun _ => only_forEach fun _ => only_perform trivial

theorem plain_allocSegments : ∀ segs, Plain (allocSegments su segs)
  | [] => only_pure
  | _ :: rest => plain_allocBlockSegment.bind fun _ =>
      (plain_allocSegments rest).bind fun _ => only_pure

theorem plain_promoteBlockSegments {segs : List BlockSegment} :
    Plain (promoteBlockSegments su r key segs) := by
  refine (plain_allocSegments segs).bind fun refs => ?_
  split
  · exact only_pure
  · refine only_act trivial fun _ => only_act trivial fun mem => ?_
    cases mem with
    | none =>
        exact only_act trivial fun _ => only_act trivial fun _ =>
          plain_writeMem.bind fun _ => plain_setMemBlock
    | some m => exact plain_writeMem.bind fun _ => only_perform trivial

open StarCacheImpl (ReadProgress BlockRange)

theorem plain_readGap {p : ReadProgress} {size : Nat} : Plain (readGap d p size) := by
  refine only_act trivial fun result => ?_
  split
  · exact only_pure
  · exact only_pure

theorem plain_mergeSegments {disk : Option DiskRef} :
    ∀ segs p, Plain (mergeSegments disk segs p)
  | [], _ => only_pure
  | seg :: rest, p => by
      unfold mergeSegments
      split
      · cases disk with
        | none => exact only_pure
        | some d =>
            refine plain_readGap.bind fun result => ?_
            split
            · exact plain_mergeSegments rest _
            · exact only_pure
      · exact plain_mergeSegments rest _

theorem plain_readRest {disk : Option DiskRef} {size : Nat} {p : ReadProgress} :
    Plain (readRest disk size p) := by
  cases disk with
  | none => exact only_pure
  | some d =>
      unfold readRest
      dsimp only
      split
      · exact plain_readGap
      · exact only_pure

theorem plain_readLocked {mem : Option MemRef} {disk : Option DiskRef} {offset : Int} {size : Nat} :
    Plain (readLocked mem disk offset size) := by
  refine Only.bind ?_ fun segments => (plain_mergeSegments segments _).bind fun merged => ?_
  · cases mem with
    | none => exact only_pure
    | some m =>
        unfold readMemBlock
        dsimp only
        split
        · exact only_pure
        · exact only_perform trivial
  · split
    · exact plain_readRest
    · exact only_pure

theorem plain_readUnlocked {size : Nat} {p : ReadProgress} :
    Plain (readUnlocked su r key size p) := by
  unfold readUnlocked
  split
  · exact only_pure
  · exact only_act trivial fun _ =>
      (only_when plain_promoteBlockSegments).bind fun _ => only_pure

theorem plain_readBlock {offset : Int} {size : Nat} : Plain (readBlock su r key offset size) := by
  refine only_act trivial fun _ => only_act trivial fun mem => only_act trivial fun disk =>
    plain_readLocked.bind fun result => ?_
  split
  · exact only_act trivial fun _ => plain_readUnlocked.bind fun _ =>
      plain_dropDiskBlock.bind fun _ => only_pure
  · exact plain_dropDiskBlock.bind fun _ => only_act trivial fun _ => only_pure

theorem plain_readBlocks : ∀ (ranges : List BlockRange) buf, Plain (readBlocks su id r ranges buf)
  | [], _ => only_pure
  | range :: rest, buf => by
      refine plain_readBlock.bind fun result => ?_
      split
      · exact plain_readBlocks rest _
      · exact only_pure

theorem plain_readCacheItem {offset : Int} {size : Nat} :
    Plain (readCacheItem su id r offset size) := by
  refine only_act trivial fun item => ?_
  dsimp only
  split
  · exact only_pure
  · refine (plain_readBlocks _ _).bind fun result => ?_
    split
    · exact plain_endless.bind fun _ => only_pure
    · exact only_pure

theorem plain_read {cacheKey : CacheKey} {request : Option (Int × Nat)} :
    Plain (read su cacheKey request) := by
  refine only_act trivial fun found => ?_
  cases found with
  | none => exact only_pure
  | some r =>
      refine Only.bind ?_ fun _ => only_act trivial fun _ => only_pure
      refine only_act trivial fun item => ?_
      split
      · exact only_pure
      · refine plain_isReleased.bind fun released => ?_
        split
        · exact only_pure
        · cases request with
          | none => exact plain_readCacheItem
          | some request => exact plain_readCacheItem

theorem plain_remove {cacheKey : CacheKey} : Plain (remove su cacheKey) := by
  refine only_act trivial fun found => ?_
  cases found with
  | none => exact only_pure
  | some r =>
      refine Only.bind ?_ fun _ => only_act trivial fun _ => only_pure
      refine only_act trivial fun item => ?_
      split
      · exact only_pure
      · exact plain_setReleased.bind fun _ =>
          (only_when plain_removeCacheItem).bind fun _ => only_pure

/-! ## Sets -/

theorem plain_writeMemBlock {buf : IOBuf} : Plain (writeMemBlock su r key buf) := by
  refine Only.bind ?_ fun sbuf => ?_
  · unfold blockBuffer
    split
    · exact only_pure
    · refine only_act trivial fun fresh => ?_
      cases fresh with
      | none => exact only_pure
      | some fresh => exact only_pure
  · cases sbuf with
    | none => exact only_pure
    | some sbuf =>
        refine plain_allocBlockSegment.bind fun g => ?_
        cases g with
        | none => exact only_pure
        | some g =>
            exact only_act trivial fun _ => plain_writeMem.bind fun _ =>
              plain_setMemBlock.bind fun _ => only_pure

theorem plain_writeDiskBlock {buf : IOBuf} : Plain (writeDiskBlock su r key buf) := by
  refine plain_allocDiskBlock.bind fun disk => ?_
  cases disk with
  | none => exact only_pure
  | some d =>
      exact only_act trivial fun _ => (only_when plain_setDiskBlock).bind fun _ =>
        only_act trivial fun _ => only_pure

theorem plain_writeBlock {buf : IOBuf} : Plain (writeBlock su r key buf) := by
  refine only_act trivial fun location => ?_
  cases location with
  | mem => exact plain_writeMemBlock
  | disk => exact plain_writeDiskBlock
  | none => exact only_pure

/-- Nothing has been inserted. -/
def NoInsert (tr : Deeds Atom Atom.Answer) : Prop := ∀ id r, ⟨.insert id r, ()⟩ ∉ tr

/-- What a call may do when it has done `tr`. -/
def Call.May (su : Setup) : Call → Deeds Atom Atom.Answer → Atom → Prop
  | .set cacheKey buf _, tr, .insert id r =>
      id = su.cachekey2id cacheKey ∧ ⟨.newItem cacheKey buf, some r⟩ ∈ tr ∧ NoInsert tr
  | _, _, .insert _ _ => False
  | _, _, _ => True

theorem may_plain (c : Call) (tr : Deeds Atom Atom.Answer) (e : Atom) (he : e.Plain) :
    c.May su tr e := by
  cases e with
  | insert => exact he.elim
  | _ => cases c <;> trivial

theorem noInsert_nil : NoInsert [] := fun _ _ h => nomatch h

theorem noInsert_cons {tr : Deeds Atom Atom.Answer} {e : Atom} {a : e.Answer} (he : e.Plain)
    (h : NoInsert tr) : NoInsert (⟨e, a⟩ :: tr) := by
  intro id r hmem
  rcases List.mem_cons.mp hmem with heq | hmem
  · cases heq
    exact he
  · exact h id r hmem

variable {c : Call} {tr : Deeds Atom Atom.Answer} {x : Op α}

/-- What inserts nothing may always be done. -/
theorem obeys_noInsert (h : Plain x) (htr : NoInsert tr) :
    Obeys (c.May su) (fun _ => NoInsert) x tr :=
  obeys_only (may_plain c) (fun _ _ _ he => noInsert_cons he) h htr

/-- The item that is allocated is one that the call has made. -/
theorem obeys_allocCacheItem {cacheKey : CacheKey} {buf : IOBuf} (htr : NoInsert tr) :
    Obeys (c.May su) (fun a tr => NoInsert tr ∧ ∀ r, a = some r → ⟨.newItem cacheKey buf, some r⟩ ∈ tr)
      (allocCacheItem su cacheKey buf) tr := by
  unfold allocCacheItem
  generalize su.flags.maxRetryWhenAllocate = n
  induction n generalizing tr with
  | zero => exact ⟨htr, fun _ h => nomatch h⟩
  | succ n ih =>
      refine obeys_act (may_plain c _ _ trivial) fun a => ?_
      have hnone : NoInsert (⟨.newItem cacheKey buf, a⟩ :: tr) := noInsert_cons trivial htr
      cases a with
      | some r =>
          refine ⟨hnone, ?_⟩
          rintro _ ⟨⟩
          exact List.mem_cons_self
      | none => exact (obeys_noInsert plain_evictMemBlock hnone).bind fun _ _ h => ih h

/-- The end of a pointer on the way out. -/
theorem obeys_dropItem {st : Status} (h : st.ok = false → NoInsert tr) :
    Obeys (c.May su) (fun st tr => st.ok = false → NoInsert tr)
      (do perform (.dropItem r); pure st) tr :=
  obeys_act (may_plain c tr _ trivial) fun _ hst => noInsert_cons trivial (h hst)

/-- A set that has inserted its item does not fail any more. -/
theorem obeys_writeCacheItem {cacheKey : CacheKey} {buf : IOBuf} {overwrite : Bool}
    (htr : NoInsert tr) : Obeys ((Call.set cacheKey buf overwrite).May su)
      (fun st tr => st.ok = false → NoInsert tr)
      (writeCacheItem su (su.cachekey2id cacheKey) cacheKey buf) tr := by
  refine (obeys_allocCacheItem htr).bind fun a tr ⟨hnone, hmade⟩ => ?_
  cases a with
  | none => exact ⟨trivial, fun x => x.elim⟩
  | some r =>
      have hmade := hmade r rfl
      refine Obeys.bind (Q := fun st tr => st.ok = false → NoInsert tr) ?_ fun _ _ => obeys_dropItem
      have hkeep : ∀ tr (e : Atom) (a : e.Answer), e.Plain →
          NoInsert tr ∧ ⟨.newItem cacheKey buf, some r⟩ ∈ tr →
          NoInsert (⟨e, a⟩ :: tr) ∧ ⟨.newItem cacheKey buf, some r⟩ ∈ (⟨e, a⟩ :: tr) :=
        fun tr e a he h => ⟨noInsert_cons he h.1, List.mem_cons_of_mem _ h.2⟩
      have hblocks : Plain (forUntil (fun st : Status => !st.ok) .OK
          (List.range (u32 ((buf.length - 1) / su.flags.blockSize : Nat) + 1)) fun i =>
            writeBlock su r ⟨su.cachekey2id cacheKey, i⟩ (StarCacheImpl.blockBytes su.flags buf i)) :=
        only_forUntil fun _ => plain_writeBlock
      refine (obeys_only (may_plain _) hkeep hblocks ⟨hnone, hmade⟩).bind
        fun st tr ⟨hnone, hmade⟩ => ?_
      split
      · refine (obeys_only (may_plain _) hkeep plain_endless ⟨hnone, hmade⟩).bind
          fun _ tr ⟨hnone, hmade⟩ => ?_
        exact obeys_act ⟨rfl, hmade, hnone⟩ fun _ h => nomatch h
      · exact fun _ => hnone

theorem obeys_set {cacheKey : CacheKey} {buf : IOBuf} {overwrite : Bool} :
    Obeys ((Call.set cacheKey buf overwrite).May su) (fun st tr => st.ok = false → NoInsert tr)
      (set su cacheKey buf overwrite) [] := by
  unfold Sharing.set
  split
  · exact fun _ => noInsert_nil
  refine obeys_act trivial fun busy => ?_
  split
  · exact fun _ => noInsert_cons trivial noInsert_nil
  refine obeys_act trivial fun found => ?_
  have hnone : NoInsert [⟨.find (su.cachekey2id cacheKey), found⟩, ⟨.ask .busy, busy⟩] :=
    noInsert_cons trivial (noInsert_cons trivial noInsert_nil)
  cases found with
  | none => exact obeys_writeCacheItem hnone
  | some r =>
      dsimp only
      split
      · refine (obeys_noInsert plain_removeCacheItem hnone).bind fun _ tr hnone => ?_
        exact (obeys_writeCacheItem hnone).bind fun _ _ => obeys_dropItem
      · exact obeys_dropItem fun _ => hnone

/-- What a call puts, by whether it succeeds. -/
def Call.puts (ok : Bool) : Call → List (CacheKey × IOBuf)
  | .set cacheKey value _ => if ok then [(cacheKey, value)] else []
  | .read _ _ | .remove _ => []

/-- How a call may end: it has inserted nothing unless it is a set that succeeds. -/
def Call.MayEnd (c : Call) (a : Call × Status × IOBuf) (tr : Deeds Atom Atom.Answer) : Prop :=
  a.1 = c ∧ (c.puts a.2.1.ok = [] → NoInsert tr)

/-- A call inserts only what it may, when it may. -/
theorem call_obeys (c : Call) : Obeys (c.May su) c.MayEnd (c.thread su) [] := by
  cases c with
  | set cacheKey buf overwrite =>
      refine obeys_set.bind fun st tr h => ⟨rfl, fun hputs => h ?_⟩
      cases hok : st.ok with
      | false => rfl
      | true =>
          simp only [Call.puts, hok, if_true] at hputs
          cases hputs
  | read cacheKey request =>
      exact (obeys_noInsert plain_read noInsert_nil).bind fun _ _ h => ⟨rfl, fun _ => h⟩
  | remove cacheKey =>
      exact (obeys_noInsert plain_remove noInsert_nil).bind fun _ _ h => ⟨rfl, fun _ => h⟩

end Sharing

end StarCache
