import StarCache.Foundation.Bounds
import StarCache.Refinement.ReadItem
import StarCache.Sharing.Calls
import Mathlib.Data.Int.Interval

/-!
# How long calls are

Bounds on the actions of each function, for objects of so many blocks and evictions that give back
so many objects at a time. The loops are those over blocks, slices, segments, evicted objects and
tries; none of them is longer than what is known of the answers lets it be.
-/

namespace StarCache

namespace Sharing

open Pool Thread MachineInt

/-- The number of slices of a block. -/
def sliceCount (flags : Flags) : Nat := flags.blockSize / flags.sliceSize

/-- The blocks that an object has at most, and the objects that an eviction gives back. -/
structure Limits where
  blocks : Nat
  evicted : Nat

/-- The answers that keep to the limits. -/
def Allowed (flags : Flags) (lim : Limits) : (e : Atom) → e.Answer → Prop
  | .getItem _, item => 0 < item.2 ∧ blockCountOf flags item.2 ≤ lim.blocks
  | .ask .memEvicted, keys => keys.length ≤ lim.evicted
  | .ask .diskEvicted, ids => ids.length ≤ lim.evicted
  | .readMem _ _ _, segs => segs.length ≤ sliceCount flags
  | .setSlice _ k _, _ => 0 ≤ k ∧ k < sliceCount flags
  | _, _ => True

variable {su : Setup} {lim : Limits} {r : ItemRef} {key : BlockKey} {i n N : Nat} {id : CacheId}
  {m : MemRef} {d : DiskRef} {α β γ : Type}

/-- So many actions at most, whatever the result is. -/
abbrev Costs (su : Setup) (lim : Limits) (m : Op α) (n : Nat) : Prop :=
  m.Within (Allowed su.flags lim) (fun _ => True) n

/-! ## What the calls cost -/

section Costs

variable (su : Setup) (lim : Limits)

def releaseCost : Nat := lim.blocks * 2 + 5

def removeCost : Nat := lim.blocks * 4 + 3

def deleteCost : Nat := 4 + releaseCost lim + removeCost lim

def diskEvictionCost : Nat := 1 + lim.evicted * (lim.blocks + 5 + releaseCost lim + removeCost lim)

def diskAllocationCost : Nat := su.flags.maxRetryWhenAllocate * (1 + diskEvictionCost lim)

def flushCost : Nat :=
  3 * sliceCount su.flags + diskAllocationCost su lim + deleteCost lim + 19

def memEvictionCost : Nat := 1 + lim.evicted * (flushCost su lim + 9)

def allocationCost : Nat := su.flags.maxRetryWhenAllocate * (1 + memEvictionCost su lim)

/-- The segments of a block that are read from disk are one more than its slices at most. -/
def promotionCost : Nat :=
  (sliceCount su.flags + 1) * (allocationCost su lim + sliceCount su.flags + 2) + 7

def blockReadCost : Nat := sliceCount su.flags + promotionCost su lim + 8

def readCost : Nat := lim.blocks * blockReadCost su lim + 8

def blockWriteCost : Nat :=
  allocationCost su lim + diskAllocationCost su lim + sliceCount su.flags + 8

def writeCost : Nat := allocationCost su lim + lim.blocks * blockWriteCost su lim + 3

def setCost : Nat := removeCost lim + writeCost su lim + 3

def callCost : Nat := setCost su lim + readCost su lim

end Costs

/-! ## Items and blocks -/

theorem costs_endless {c : Bool} : Costs su lim (when c (.act .endless Empty.elim)) 1 := by
  refine within_when ?_
  exact fun x => x.elim

theorem costs_isReleased : Costs su lim (isReleased r) 3 :=
  within_act fun _ _ => within_act fun _ _ => within_act fun _ _ => within_pure trivial

theorem costs_setReleased : Costs su lim (setReleased r) 4 :=
  within_act fun _ _ => within_act fun _ _ =>
    (within_when (within_perform fun _ _ => trivial)).bind fun _ _ =>
      within_act fun _ _ => within_pure trivial

theorem costs_blockHeld : Costs su lim (blockHeld r i) 2 := by
  refine within_act fun m _ => ?_
  split
  · exact within_done trivial
  · exact within_perform fun _ _ => trivial

theorem costs_releaseLocked : Costs su lim (releaseLocked su r) (lim.blocks * 2 + 3) := by
  refine within_act fun released _ => ?_
  split
  · exact within_done trivial
  · refine within_act fun item hitem => (within_forUntil (List.length_range.trans_le hitem.2)
      fun i _ => costs_blockHeld).bind fun held _ => Within.le (n := 1) ?_ (Nat.le_refl _)
    split
    · exact within_done trivial
    · exact within_act fun _ _ => within_pure trivial

theorem costs_releaseIfEmpty : Costs su lim (releaseIfEmpty su r) (releaseCost lim) :=
  within_act fun _ _ => costs_releaseLocked.bind fun _ _ => within_act fun _ _ => within_pure trivial

theorem costs_clearDiskBlocks : Costs su lim (clearDiskBlocks su r) (lim.blocks * 1 + 3) :=
  within_act fun _ _ => within_act fun _ hitem =>
    (within_forEach (List.length_range.trans_le hitem.2) fun _ _ =>
      within_perform fun _ _ => trivial).bind fun _ _ => within_perform fun _ _ => trivial

theorem costs_clearBlock : Costs su lim (clearBlock su r key) 4 :=
  within_act fun _ _ => within_act fun _ _ => within_act fun _ _ =>
    within_perform fun _ _ => trivial

theorem costs_setMemBlock {x : Option MemRef} : Costs su lim (setMemBlock su r key x) 3 :=
  within_act fun _ _ => within_act fun _ _ => within_perform fun _ _ => trivial

theorem costs_setDiskBlock : Costs su lim (setDiskBlock su r key d) 3 :=
  within_act fun _ _ => within_act fun _ _ => within_perform fun _ _ => trivial

theorem costs_dropDiskBlock {disk : Option DiskRef} : Costs su lim (dropDiskBlock disk) 1 := by
  cases disk with
  | none => exact within_done trivial
  | some d => exact within_perform fun _ _ => trivial

theorem costs_removeCacheItem : Costs su lim (removeCacheItem su id r) (removeCost lim) :=
  within_act fun _ _ => within_act fun _ hitem =>
    (within_forEach (List.length_range.trans_le ((Nat.min_le_left ..).trans hitem.2)) fun _ _ =>
      costs_clearBlock).bind fun _ _ => costs_endless

/-! ## Evictions and flushes -/

theorem costs_processEvictedDiskItems : ∀ ids, Costs su lim (processEvictedDiskItems su ids)
    (ids.length * (lim.blocks + 5 + releaseCost lim + removeCost lim))
  | [] => within_done trivial
  | id :: rest => by
      have ih := costs_processEvictedDiskItems rest
      rw [List.length_cons, Nat.succ_mul]
      generalize rest.length * _ = cost at ih ⊢
      suffices h : Costs su lim (processEvictedDiskItems su (id :: rest))
          (lim.blocks * 1 + 3 + (releaseCost lim + (removeCost lim + (cost + 1))) + 1) by
        exact h.le (by omega)
      refine within_act fun found _ => ?_
      cases found with
      | none => exact within_done trivial
      | some r =>
          exact costs_clearDiskBlocks.bind fun _ _ => costs_releaseIfEmpty.bind fun _ _ =>
            (within_when costs_removeCacheItem).bind fun _ _ => within_act fun _ _ => ih

theorem costs_evictForDiskBlock : Costs su lim (evictForDiskBlock su) (diskEvictionCost lim) := by
  unfold diskEvictionCost
  rw [Nat.add_comm]
  exact within_act fun evicted hevicted => (costs_processEvictedDiskItems evicted).le
    (Nat.mul_le_mul_right _ hevicted)

theorem costs_allocDiskBlock : Costs su lim (allocDiskBlock su r i) (diskAllocationCost su lim) :=
  within_retry (within_perform fun _ _ => trivial) costs_evictForDiskBlock _

theorem collectSegments_length (acc : List SegmentRef) (x : Option SegmentRef) :
    (MemBlockItem.collectSegments acc x).length ≤ acc.length + 1 := by
  unfold MemBlockItem.collectSegments
  split
  · exact Nat.le_succ _
  · split
    · exact Nat.le_succ _
    · exact Nat.le_of_eq List.length_append

/-- As many segments as slices at most. -/
theorem within_listSlices : ∀ ks acc, (listSlices m ks acc).Within (Allowed su.flags lim)
    (fun refs => refs.length ≤ acc.length + ks.length) ks.length
  | [], _ => within_done (Nat.le_refl _)
  | k :: rest, acc => by
      refine within_act fun x _ => (within_listSlices rest _).post fun refs hrefs => ?_
      have := collectSegments_length acc x
      rw [List.length_cons]
      omega

theorem blockSliceCount_le (flags : Flags) : blockSliceCount flags ≤ sliceCount flags := by
  unfold blockSliceCount
  rw [u32_natCast]
  exact Nat.mod_le ..

theorem within_listSegments : (listSegments su m).Within (Allowed su.flags lim)
    (fun refs => refs.length ≤ sliceCount su.flags) (sliceCount su.flags) := by
  have hlen : (List.range (blockSliceCount su.flags)).length ≤ sliceCount su.flags :=
    List.length_range.trans_le (blockSliceCount_le su.flags)
  refine ((within_listSlices _ []).post fun refs hrefs => ?_).le hlen
  rw [List.length_nil, Nat.zero_add] at hrefs
  exact hrefs.trans hlen

theorem within_getSegments : ∀ refs, (getSegments refs).Within (Allowed su.flags lim)
    (fun segs => segs.length = refs.length) refs.length
  | [] => within_done rfl
  | g :: rest => within_act fun _ _ => (within_getSegments rest).bind fun segs hsegs =>
      within_pure (by rw [List.length_cons, List.length_cons, hsegs])

theorem costs_writeSegments : ∀ segs, Costs su lim (writeSegments d segs) segs.length
  | [] => within_done trivial
  | seg :: rest => by
      refine within_act fun st _ => ?_
      split
      · exact costs_writeSegments rest
      · exact within_done trivial

theorem costs_flushToDisk {segs : List BlockSegment} {disk : Option DiskRef}
    (hsegs : segs.length ≤ sliceCount su.flags) :
    Costs su lim (flushToDisk su r key segs disk)
      (diskAllocationCost su lim + sliceCount su.flags + 6) := by
  cases disk with
  | none =>
      suffices h : Costs su lim (flushNew su r key segs)
          (diskAllocationCost su lim + (sliceCount su.flags + (3 + 1)) + 1 + 1) by
        exact h.le (by omega)
      refine within_act fun item _ => within_act fun _ _ => costs_allocDiskBlock.bind fun disk _ => ?_
      cases disk with
      | none => exact within_done trivial
      | some d =>
          exact ((costs_writeSegments segs).le hsegs).bind fun st _ =>
            (within_when costs_setDiskBlock).bind fun _ _ => within_act fun _ _ => within_pure trivial
  | some d =>
      have h : Costs su lim (flushOver su r key segs d) (sliceCount su.flags + (1 + 2) + 1) :=
        within_act fun _ _ => ((costs_writeSegments segs).le hsegs).bind fun st _ =>
          (within_when (within_perform fun _ _ => trivial)).bind fun _ _ => within_act fun _ _ =>
            within_act fun _ _ => within_pure trivial
      exact h.le (by omega)

theorem costs_deleteBlock : Costs su lim (deleteBlock su r key) (deleteCost lim) := by
  unfold deleteCost
  rw [Nat.add_assoc]
  exact costs_clearBlock.bind fun _ _ => costs_releaseIfEmpty.bind fun _ _ =>
    within_when costs_removeCacheItem

theorem costs_flushBlockSegments {segs : List BlockSegment}
    (hsegs : segs.length ≤ sliceCount su.flags) :
    Costs su lim (flushBlockSegments su r key segs)
      (diskAllocationCost su lim + sliceCount su.flags + 6 + 3 + 1 + 1 + 1) :=
  within_act fun _ _ => within_act fun _ _ => within_act fun _ _ =>
    ((costs_flushToDisk hsegs).bind fun _ _ => costs_setMemBlock.bind fun _ _ => within_pure trivial)

theorem costs_flushAdmitted : Costs su lim (flushAdmitted su r key m)
    (3 * sliceCount su.flags + diskAllocationCost su lim + deleteCost lim + 14) := by
  suffices h : Costs su lim (flushAdmitted su r key m) (sliceCount su.flags + (sliceCount su.flags +
      (deleteCost lim + (diskAllocationCost su lim + sliceCount su.flags + 12) + 1 + 1))) by
    exact h.le (by omega)
  refine within_listSegments.bind fun refs hrefs => ((within_getSegments refs).le hrefs).bind
    fun segs hsegs => within_act fun present _ => within_act fun item _ => ?_
  split
  · exact costs_deleteBlock.le (Nat.le_add_right ..)
  · exact ((costs_flushBlockSegments (hsegs.trans_le hrefs)).bind fun _ _ =>
      within_pure trivial).le (Nat.le_add_left ..)

theorem costs_flushBlock : Costs su lim (flushBlock su r key) (flushCost su lim) := by
  suffices h : Costs su lim (flushBlock su r key) (3 + (3 * sliceCount su.flags +
      diskAllocationCost su lim + deleteCost lim + 14 + 1 + 1)) by
    exact h.le (by unfold flushCost; omega)
  refine costs_isReleased.bind fun released _ => ?_
  split
  · exact within_done trivial
  · refine within_act fun mem _ => ?_
    cases mem with
    | none => exact within_done trivial
    | some m =>
        refine within_act fun admission _ => ?_
        cases admission with
        | skip => exact within_done trivial
        | delete => exact costs_deleteBlock.le (by omega)
        | flush => exact costs_flushAdmitted

/-! ## Evictions from memory -/

theorem costs_dropMemBlock : Costs su lim (dropMemBlock r i) 4 := by
  refine within_act fun mem _ => ?_
  cases mem with
  | none => exact within_done trivial
  | some m =>
      refine within_act fun state _ => ?_
      split
      · exact within_done trivial
      · refine within_act fun present _ => ?_
        split
        · exact within_act fun _ _ => within_pure trivial
        · exact within_done trivial

theorem costs_processEvictedMemBlock :
    Costs su lim (processEvictedMemBlock su key) (flushCost su lim + 9) := by
  suffices h : Costs su lim (processEvictedMemBlock su key)
      (4 + (flushCost su lim + 1 + 1) + 1 + 1 + 1) by
    exact h.le (by omega)
  refine within_act fun found _ => ?_
  cases found with
  | none => exact within_done trivial
  | some r =>
      have hflush : ∀ flush, Costs su lim (do
          unlockBlock su key
          when flush (flushBlock su r key)
          perform (.dropItem r)) (flushCost su lim + 1 + 1) := fun flush =>
        within_act fun _ _ => (within_when costs_flushBlock).bind fun _ _ =>
          within_perform fun _ _ => trivial
      refine within_act fun _ _ => within_act fun item _ => ?_
      split
      · exact (hflush false).le (Nat.le_add_left ..)
      · exact costs_dropMemBlock.bind fun flush _ => hflush flush

theorem costs_evictMemBlock : Costs su lim (evictMemBlock su) (memEvictionCost su lim) := by
  unfold memEvictionCost
  rw [Nat.add_comm]
  exact within_act fun evicted hevicted => within_forEach hevicted fun _ _ =>
    costs_processEvictedMemBlock

theorem costs_allocCacheItem {cacheKey : CacheKey} {value : IOBuf} :
    Costs su lim (allocCacheItem su cacheKey value) (allocationCost su lim) :=
  within_retry (within_perform fun _ _ => trivial) costs_evictMemBlock _

theorem costs_allocBlockSegment {offset size : Nat} {buf : IOBuf} :
    Costs su lim (allocBlockSegment su offset size buf) (allocationCost su lim) :=
  within_retry (within_perform fun _ _ => trivial) costs_evictMemBlock _

/-! ## Promotion -/

theorem nodup_sliceIndexes (flags : Flags) (seg : BlockSegment) : (sliceIndexes flags seg).Nodup := by
  unfold sliceIndexes
  split
  · exact List.nodup_nil
  · exact List.Nodup.map (fun x y h => Int.ofNat.inj (Int.add_left_cancel h)) List.nodup_range

/-- A segment cannot go to more slices than there are. -/
theorem costs_setSlices {seg : BlockSegment} {g : SegmentRef} :
    Costs su lim (forEach (sliceIndexes su.flags seg) fun k => perform (.setSlice m k g))
      (sliceCount su.flags + 1) := by
  have h : Costs su lim (forEach (sliceIndexes su.flags seg) fun k => perform (.setSlice m k g))
      (((Finset.Ico 0 (sliceCount su.flags : Int)).card + 1) * 1) :=
    within_forEach_distinct (nodup_sliceIndexes su.flags seg) fun k _ =>
      within_perform fun _ hk => Finset.mem_Ico.mpr hk
  rwa [Int.card_Ico, Int.sub_zero, Int.toNat_natCast, Nat.mul_one] at h

theorem costs_writeMem {refs : List SegmentRef} (hrefs : refs.length ≤ n) :
    Costs su lim (writeMem su m refs) (n * (sliceCount su.flags + 2)) :=
  within_forEach hrefs fun _ _ => within_act fun _ _ => costs_setSlices

theorem within_allocSegments : ∀ segs, (allocSegments su segs).Within (Allowed su.flags lim)
    (fun refs => refs.length ≤ segs.length) (segs.length * allocationCost su lim)
  | [] => within_done (Nat.le_refl _)
  | seg :: rest => by
      rw [List.length_cons, Nat.succ_mul, Nat.add_comm (rest.length * _)]
      refine costs_allocBlockSegment.bind fun g _ => (within_allocSegments rest).bind (k := 0)
        fun refs hrefs => within_pure ?_
      rw [List.length_append]
      cases g <;> simp <;> omega

theorem costs_promoteSegments {refs : List SegmentRef} (hrefs : refs.length ≤ n) :
    Costs su lim (promoteSegments su r key refs) (n * (sliceCount su.flags + 2) + 7) := by
  suffices h : Costs su lim (promoteSegments su r key refs)
      (n * (sliceCount su.flags + 2) + 3 + 1 + 1 + 1 + 1) from h
  refine within_act fun _ _ => within_act fun mem _ => ?_
  cases mem with
  | none =>
      exact within_act fun _ _ => within_act fun m _ => (costs_writeMem hrefs).bind fun _ _ =>
        costs_setMemBlock
  | some m =>
      have h : Costs su lim (do writeMem su m refs; unlockBlock su key)
          (n * (sliceCount su.flags + 2) + 1) :=
        (costs_writeMem hrefs).bind fun _ _ => within_perform fun _ _ => trivial
      exact h.le (by omega)

theorem costs_promoteBlockSegments {segs : List BlockSegment}
    (hsegs : segs.length ≤ sliceCount su.flags + 1) :
    Costs su lim (promoteBlockSegments su r key segs) (promotionCost su lim) := by
  unfold promotionCost
  rw [Nat.add_assoc (allocationCost su lim), Nat.mul_add, Nat.add_assoc]
  refine ((within_allocSegments segs).le (Nat.mul_le_mul_right _ hsegs)).bind fun refs hrefs => ?_
  split
  · exact within_done trivial
  · exact costs_promoteSegments (hrefs.trans hsegs)

/-! ## Reads -/

open StarCacheImpl (ReadProgress BlockRange blockRanges clampSize alignedRange_lt)

theorem within_readGap {p : ReadProgress} {size : Nat} : (readGap d p size).Within
    (Allowed su.flags lim) (fun a => a.2.diskSegments.length ≤ p.diskSegments.length + 1) 1 := by
  refine within_act fun result _ => ?_
  split
  · exact within_done (Nat.le_of_eq List.length_append)
  · exact within_done (Nat.le_succ _)

theorem within_mergeSegments {disk : Option DiskRef} : ∀ (segs : List BlockSegment) p,
    (mergeSegments disk segs p).Within (Allowed su.flags lim)
      (fun a => a.2.diskSegments.length ≤ p.diskSegments.length + segs.length) segs.length
  | [], p => within_done (Nat.le_refl _)
  | seg :: rest, p => by
      unfold mergeSegments
      rw [List.length_cons]
      split
      · cases disk with
        | none => exact within_done (Nat.le_add_right ..)
        | some d =>
            refine Within.le (n := 1 + rest.length) ?_ (Nat.le_of_eq (Nat.add_comm ..))
            refine within_readGap.bind fun a ha => ?_
            split
            · refine (within_mergeSegments rest _).post fun b hb => ?_
              have : (a.2.append seg).diskSegments = a.2.diskSegments := rfl
              rw [this] at hb
              omega
            · exact within_done (by omega)
      · refine ((within_mergeSegments rest _).post fun b hb => ?_).le (Nat.le_succ _)
        have : (p.append seg).diskSegments = p.diskSegments := rfl
        rw [this] at hb
        omega

theorem within_readLocked {mem : Option MemRef} {disk : Option DiskRef} {offset : Int} {size : Nat} :
    (readLocked mem disk offset size).Within (Allowed su.flags lim)
      (fun a => a.2.diskSegments.length ≤ sliceCount su.flags + 1) (sliceCount su.flags + 2) := by
  suffices h : (readLocked mem disk offset size).Within (Allowed su.flags lim)
      (fun a => a.2.diskSegments.length ≤ sliceCount su.flags + 1) (1 + (sliceCount su.flags + 1)) by
    exact h.le (by omega)
  have hmem : (readMemBlock mem offset size).Within (Allowed su.flags lim)
      (fun segs => segs.length ≤ sliceCount su.flags) 1 := by
    cases mem with
    | none => exact within_done (Nat.zero_le _)
    | some m =>
        unfold readMemBlock
        dsimp only
        split
        · exact within_done (Nat.zero_le _)
        · exact within_perform fun _ h => h
  refine hmem.bind fun segs hsegs => ((within_mergeSegments segs _).le hsegs).bind fun a ha => ?_
  have ha : a.2.diskSegments.length ≤ sliceCount su.flags := by
    have ha : a.2.diskSegments.length ≤ 0 + segs.length := ha
    omega
  split
  · unfold readRest
    split
    · exact within_done (Nat.le_succ_of_le ha)
    · split
      · exact within_readGap.post fun b hb => hb.trans (Nat.succ_le_succ ha)
      · exact within_done (Nat.le_succ_of_le ha)
  · exact within_done (Nat.le_succ_of_le ha)

theorem costs_readUnlocked {p : ReadProgress} {size : Nat}
    (hp : p.diskSegments.length ≤ sliceCount su.flags + 1) :
    Costs su lim (readUnlocked su r key size p) (promotionCost su lim + 1) := by
  unfold readUnlocked
  split
  · exact within_done trivial
  · exact within_act fun _ _ => (within_when (costs_promoteBlockSegments hp)).bind (k := 0)
      fun _ _ => within_pure trivial

theorem costs_readBlock {offset : Int} {size : Nat} :
    Costs su lim (readBlock su r key offset size) (blockReadCost su lim) := by
  suffices h : Costs su lim (readBlock su r key offset size)
      (sliceCount su.flags + 2 + (promotionCost su lim + 1 + 1 + 1) + 1 + 1 + 1) by
    exact h.le (by unfold blockReadCost; omega)
  refine within_act fun _ _ => within_act fun mem _ => within_act fun disk _ =>
    within_readLocked.bind fun a ha => ?_
  split
  · exact within_act fun _ _ => (costs_readUnlocked ha).bind fun _ _ =>
      costs_dropDiskBlock.bind (k := 0) fun _ _ => within_pure trivial
  · refine Within.le (n := 1 + 1) ?_ (by omega)
    exact costs_dropDiskBlock.bind fun _ _ => within_act fun _ _ => within_pure trivial

theorem costs_readBlocks : ∀ (ranges : List BlockRange) buf,
    Costs su lim (readBlocks su id r ranges buf) (ranges.length * blockReadCost su lim)
  | [], _ => within_done trivial
  | range :: rest, buf => by
      rw [List.length_cons, Nat.succ_mul, Nat.add_comm]
      refine costs_readBlock.bind fun a _ => ?_
      split
      · exact costs_readBlocks rest _
      · exact within_done trivial

theorem blockRanges_length {flags : Flags} {lower upper size : Nat} (hlt : upper < 4294967296)
    (hsize : upper < size) : (blockRanges flags lower upper).length ≤ blockCountOf flags size := by
  unfold blockRanges
  dsimp only
  rw [List.length_map, List.length_range', u32_off2block hlt]
  have hdiv : upper / flags.blockSize ≤ (size - 1) / flags.blockSize :=
    Nat.div_le_div_right (Nat.le_pred_of_lt hsize)
  unfold blockCountOf
  rw [if_neg (Nat.ne_of_gt (Nat.zero_lt_of_lt hsize))]
  exact (Nat.sub_le ..).trans (Nat.succ_le_succ hdiv)

theorem costs_readCacheItem {offset : Int} {size : Nat} :
    Costs su lim (readCacheItem su id r offset size) (lim.blocks * blockReadCost su lim + 2) := by
  refine within_act fun item hitem => ?_
  dsimp only
  split
  · exact within_done trivial
  · obtain ⟨_, hlt, hsize⟩ := @alignedRange_lt su.flags _ hitem.1 offset
      (clampSize item.2 offset size)
    refine ((costs_readBlocks _ []).le (Nat.mul_le_mul_right _
      ((blockRanges_length hlt hsize).trans hitem.2))).bind fun result _ => ?_
    split
    · exact costs_endless.bind (k := 0) fun _ _ => within_pure trivial
    · exact within_done trivial

theorem costs_read {cacheKey : CacheKey} {request : Option (Int × Nat)} :
    Costs su lim (read su cacheKey request) (readCost su lim) := by
  suffices h : Costs su lim (read su cacheKey request)
      (3 + (lim.blocks * blockReadCost su lim + 2) + 1 + 1 + 1) by
    exact h.le (by unfold readCost; omega)
  refine within_act fun found _ => ?_
  cases found with
  | none => exact within_done trivial
  | some r =>
      refine Within.bind (n := 3 + (lim.blocks * blockReadCost su lim + 2) + 1)
        (Q := fun _ => True) (within_act fun item _ => ?_) fun _ _ => within_act fun _ _ =>
          within_pure trivial
      split
      · exact within_done trivial
      · refine costs_isReleased.bind fun released _ => ?_
        split
        · exact within_done trivial
        · cases request with
          | none => exact costs_readCacheItem
          | some o => exact costs_readCacheItem

/-! ## Writes -/

theorem costs_blockBuffer {buf : IOBuf} : Costs su lim (blockBuffer su buf) 1 := by
  unfold blockBuffer
  split
  · exact within_done trivial
  · refine within_act fun fresh _ => ?_
    cases fresh <;> exact within_done trivial

theorem costs_writeMemBlock {buf : IOBuf} : Costs su lim (writeMemBlock su r key buf)
    (1 + (allocationCost su lim + (1 * (sliceCount su.flags + 2) + 3 + 1))) := by
  refine costs_blockBuffer.bind fun copy _ => ?_
  cases copy with
  | none => exact within_done trivial
  | some sbuf =>
      refine costs_allocBlockSegment.bind fun g _ => ?_
      cases g with
      | none => exact within_done trivial
      | some g =>
          exact within_act fun m _ => (costs_writeMem (Nat.le_refl _)).bind fun _ _ =>
            costs_setMemBlock.bind (k := 0) fun _ _ => within_pure trivial

theorem costs_writeDiskBlock {buf : IOBuf} : Costs su lim (writeDiskBlock su r key buf)
    (diskAllocationCost su lim + (3 + 1 + 1)) := by
  refine costs_allocDiskBlock.bind fun disk _ => ?_
  cases disk with
  | none => exact within_done trivial
  | some d =>
      exact within_act fun st _ => (within_when costs_setDiskBlock).bind fun _ _ =>
        within_act fun _ _ => within_pure trivial

theorem costs_writeBlock {buf : IOBuf} :
    Costs su lim (writeBlock su r key buf) (blockWriteCost su lim) := by
  suffices h : Costs su lim (writeBlock su r key buf)
      (allocationCost su lim + diskAllocationCost su lim + sliceCount su.flags + 7 + 1) from h
  refine within_act fun location _ => ?_
  cases location with
  | mem => exact costs_writeMemBlock.le (by omega)
  | disk => exact costs_writeDiskBlock.le (by omega)
  | none => exact within_done trivial

theorem costs_writeBlocks {buf : IOBuf} (hpos : buf ≠ [])
    (hbuf : blockCountOf su.flags buf.length ≤ lim.blocks) :
    Costs su lim (writeBlocks su id r buf) (lim.blocks * blockWriteCost su lim + 2) := by
  have hcount : (List.range (u32 ((buf.length - 1) / su.flags.blockSize : Nat) + 1)).length ≤
      lim.blocks := by
    rw [List.length_range, u32_natCast]
    refine le_trans ?_ hbuf
    unfold blockCountOf
    rw [if_neg (Nat.ne_of_gt (List.length_pos_of_ne_nil hpos))]
    exact Nat.succ_le_succ (Nat.mod_le ..)
  refine (within_forUntil hcount fun _ _ => costs_writeBlock).bind fun st _ => ?_
  split
  · exact costs_endless.bind fun _ _ => within_act fun _ _ => within_pure trivial
  · exact within_done trivial

theorem costs_writeCacheItem {cacheKey : CacheKey} {buf : IOBuf} (hpos : buf ≠ [])
    (hbuf : blockCountOf su.flags buf.length ≤ lim.blocks) :
    Costs su lim (writeCacheItem su id cacheKey buf) (writeCost su lim) := by
  unfold writeCost
  rw [Nat.add_assoc]
  refine costs_allocCacheItem.bind fun item _ => ?_
  cases item with
  | none => exact fun x => x.elim
  | some r =>
      exact (costs_writeBlocks hpos hbuf).bind fun st _ => within_act fun _ _ => within_pure trivial

/-! ## Calls -/

/-- A set of an object of so many blocks at most. -/
def Call.Small (flags : Flags) (lim : Limits) : Call → Prop
  | .set _ buf _ => blockCountOf flags buf.length ≤ lim.blocks
  | _ => True

theorem costs_set {cacheKey : CacheKey} {buf : IOBuf} {overwrite : Bool}
    (hbuf : blockCountOf su.flags buf.length ≤ lim.blocks) :
    Costs su lim (set su cacheKey buf overwrite) (setCost su lim) := by
  unfold set
  split
  · exact within_done trivial
  next hpos =>
    have hpos : buf ≠ [] := fun h => hpos (by rw [h]; rfl)
    suffices h : Costs su lim _ (removeCost lim + (writeCost su lim + 1) + 1 + 1) by
      exact h.le (by unfold setCost; omega)
    refine within_act fun busy _ => ?_
    split
    · exact within_done trivial
    · refine within_act fun found _ => ?_
      cases found with
      | none => exact (costs_writeCacheItem hpos hbuf).le (by omega)
      | some r =>
          dsimp only
          split
          · exact costs_removeCacheItem.bind fun _ _ => (costs_writeCacheItem hpos hbuf).bind
              fun st _ => within_act fun _ _ => within_pure trivial
          · exact within_act fun _ _ => within_done trivial

theorem costs_remove {cacheKey : CacheKey} : Costs su lim (remove su cacheKey)
    (removeCost lim + 7) := by
  refine within_act fun found _ => ?_
  cases found with
  | none => exact within_done trivial
  | some r =>
      suffices h : Costs su lim (removeFound su (su.cachekey2id cacheKey) cacheKey r)
          (4 + removeCost lim + 1) by
        refine Within.le (n := 4 + removeCost lim + 1 + 1) ?_ (by omega)
        exact h.bind fun _ _ => within_act fun _ _ => within_pure trivial
      refine within_act fun item _ => ?_
      split
      · exact within_done trivial
      · exact costs_setReleased.bind fun released _ =>
          (within_when costs_removeCacheItem).bind (k := 0) fun _ _ => within_pure trivial

/-- Every call is bounded. -/
theorem costs_call {c : Call} (hc : c.Small su.flags lim) :
    Costs su lim (c.thread su) (callCost su lim) := by
  cases c with
  | set cacheKey buf overwrite =>
      exact ((costs_set hc).bind (k := 0) fun _ _ => within_pure trivial).le (Nat.le_add_right ..)
  | read cacheKey request =>
      exact (costs_read.bind (k := 0) fun _ _ => within_pure trivial).le (Nat.le_add_left ..)
  | remove cacheKey =>
      refine (costs_remove.bind (k := 0) fun _ _ => within_pure trivial).le ?_
      unfold callCost setCost readCost
      omega

end Sharing

end StarCache
