import StarCache.Sharing.Removal

/-!
# Flushing shared blocks

The segments of a memory block are collected without its lock, written to a disk block, and the
disk block is published. A new one must have got all bytes of the block before; one that there is
gets bytes that it has already. Memory eviction flushes the blocks that it gives up.
-/

namespace StarCache

namespace Sharing

open Discipline Function Shared MachineInt

variable {su : Setup} {V : Objects} {t : Nat} {h : Held} {F : Knowledge} {r : ItemRef} {i : Nat}
  {d : DiskRef} {m : MemRef}

/-! ## Collecting segments -/

/-- The pointers are to parts of the block. -/
def AllSegments (flags : Flags) (refs : List SegmentRef) (r : ItemRef) (i : Nat) : Knowledge :=
  fun tr s => ∀ g ∈ refs, SegmentOf flags g r i tr s

/-- The segments are parts of the block. -/
def AllData (flags : Flags) (segs : List BlockSegment) (r : ItemRef) (i : Nat) : Knowledge :=
  fun tr s => ∀ seg ∈ segs, DataOf flags seg r i tr s

theorem lasting_allSegments {flags : Flags} {refs : List SegmentRef} :
    Lasting flags V (AllSegments flags refs r i) :=
  persistent_all fun _ => persistent_all fun _ => lasting_segmentOf

theorem lasting_allData {flags : Flags} {segs : List BlockSegment} :
    Lasting flags V (AllData flags segs r i) :=
  persistent_all fun _ => persistent_all fun _ => lasting_dataOf

theorem mem_collectSegments {acc : List SegmentRef} {x : Option SegmentRef} {g : SegmentRef}
    (hg : g ∈ MemBlockItem.collectSegments acc x) : g ∈ acc ∨ x = some g := by
  have hmem : g ∈ [x].foldl MemBlockItem.collectSegments acc := hg
  rw [mem_foldl_collectSegments, List.mem_singleton] at hmem
  exact hmem.imp_right Eq.symm

theorem listSlices_runs (hF : Lasting su.flags V F) (hm : Gets su.flags V F (MemOf m r i)) :
    ∀ (ks : List Nat) (acc : List SegmentRef),
      (∀ k ∈ ks, k < su.flags.blockSize / su.flags.sliceSize) →
      Runs su.flags V t h (fun tr s => F tr s ∧ AllSegments su.flags acc r i tr s)
        (listSlices m ks acc) (fun _ => h) fun refs tr s => F tr s ∧ AllSegments su.flags refs r i tr s
  | [], acc, _ => runs_pure rfl (.refl _)
  | k :: rest, acc, hks => by
      have hF' := hF.and (@lasting_allSegments V r i su.flags acc)
      refine Runs.bind (getSlice_runs hF' hm.left (hks k List.mem_cons_self)) fun x => ?_
      refine (listSlices_runs hF hm rest _ fun k' hk' => hks k' (List.mem_cons_of_mem _ hk')).pre ?_
      rintro tr s _ ⟨⟨hP, hacc⟩, hx⟩
      exact ⟨hP, fun g hg => (mem_collectSegments hg).elim (hacc g) (hx g)⟩

theorem listSegments_runs (hF : Lasting su.flags V F) (hgeo : Geometry su.flags)
    (hm : Gets su.flags V F (MemOf m r i)) :
    Runs su.flags V t h F (listSegments su m) (fun _ => h)
      fun refs tr s => F tr s ∧ AllSegments su.flags refs r i tr s := by
  refine (listSlices_runs hF hm _ [] fun k hk => ?_).pre fun tr s _ hP => ⟨hP, fun g hg => nomatch hg⟩
  rw [← hgeo.blockSliceCount]
  exact List.mem_range.mp hk

theorem getSegments_runs : ∀ (refs : List SegmentRef) {F : Knowledge}, Lasting su.flags V F →
    Runs su.flags V t h (fun tr s => F tr s ∧ AllSegments su.flags refs r i tr s)
      (getSegments refs) (fun _ => h) fun segs tr s => F tr s ∧ AllData su.flags segs r i tr s
  | [], F, hF => runs_pure rfl fun tr s _ hP => ⟨hP.1, fun _ h => nomatch h⟩
  | g :: rest, F, hF => by
      have hF' := hF.and (@lasting_allSegments V r i su.flags (g :: rest))
      refine Runs.bind (getSegment_runs hF' fun tr s _ hP => (hP.2 g List.mem_cons_self).2.1)
        fun seg => ?_
      refine Runs.bind (Runs.pre (getSegments_runs rest
        (hF.and (@lasting_dataOf su.flags V r i seg))) ?_) fun segs => ?_
      · rintro tr s hs ⟨⟨hP, hall⟩, hseg⟩
        exact ⟨⟨hP, SegmentOf.dataOf tr s hs ⟨hall g List.mem_cons_self, hseg⟩⟩,
          fun g' hg' => hall g' (List.mem_cons_of_mem _ hg')⟩
      · refine runs_pure rfl fun tr s _ ⟨⟨hP, hseg⟩, hall⟩ => ⟨hP, fun seg' h' => ?_⟩
        rcases List.mem_cons.mp h' with rfl | h'
        · exact hseg
        · exact hall seg' h'

/-- As far as the segments are contiguous, they have every byte. -/
theorem continuous_covers {p : Nat} : ∀ {segs : List BlockSegment} {size : Nat}, size ≤ p →
    p < StarCacheImpl.continuousSegmentsSize segs size →
      ∃ seg ∈ segs, seg.offset ≤ p ∧ p < seg.offset + seg.size
  | [], size, hle, hlt => by
      unfold StarCacheImpl.continuousSegmentsSize at hlt
      omega
  | seg :: rest, size, hle, hlt => by
      unfold StarCacheImpl.continuousSegmentsSize at hlt
      split at hlt
      next => omega
      next heq =>
        rw [not_not] at heq
        by_cases hin : p < size + seg.size
        · exact ⟨seg, List.mem_cons_self, by omega, by omega⟩
        · obtain ⟨seg', hmem, hcover⟩ := continuous_covers (Nat.not_lt.mp hin) hlt
          exact ⟨seg', List.mem_cons_of_mem _ hmem, hcover⟩

/-- `block_size` is the number of bytes of the block. -/
theorem blockSizeOf_eq {flags : Flags} {value : IOBuf} (hlen : value.length ≤ 2147483648)
    (hi : i < blockCountOf flags value.length) :
    blockSizeOf flags value.length i = (blockPart flags value i).length := by
  rw [lt_blockCountOf] at hi
  have htail : u64 ((value.length : Int) - i * flags.blockSize) =
      value.length - i * flags.blockSize := by
    rw [show (value.length : Int) - i * flags.blockSize =
      (value.length - i * flags.blockSize : Nat) by push_cast [Int.ofNat_sub hi.le]; ring]
    exact u64_of_lt (by omega)
  unfold blockSizeOf
  rw [length_blockPart, htail]
  dsimp only
  split <;> omega

/-! ## Writing segments -/

theorem writeOver_leaves (hF : Lasting su.flags V F) (hflags : Sized su.flags) (hd : 0 < h.disks d)
    (hdisk : Gets su.flags V F (DiskOf d r i)) : ∀ segs : List BlockSegment,
      Gets su.flags V F (AllData su.flags segs r i) → Leaves su.flags V t h F (writeSegments d segs)
  | [], _ => runs_pure rfl (.refl F)
  | seg :: rest, hsegs => by
      refine Runs.bind (writeOver_runs hF hflags hd hdisk fun tr s hs hP =>
        hsegs tr s hs hP seg List.mem_cons_self) fun st => ?_
      split
      · exact writeOver_leaves hF hflags hd hdisk rest fun tr s hs hP seg' h' =>
          hsegs tr s hs hP seg' (List.mem_cons_of_mem _ h')
      · exact runs_pure rfl (.refl F)

theorem fill_leaves (hF : Lasting su.flags V F) (hflags : Sized su.flags) (hd : 0 < h.disks d) :
    ∀ (segs : List BlockSegment) (done : Nat → Prop),
      Gets su.flags V F (AllData su.flags segs r i) →
      Runs su.flags V t h (fun tr s => F tr s ∧ Filled su.flags d r i done tr s)
        (writeSegments d segs) (fun _ => h) fun st tr s => F tr s ∧ Filled su.flags d r i
          (fun p => done p ∨ st.ok = true ∧ ∃ seg ∈ segs, seg.offset ≤ p ∧ p < seg.offset + seg.size)
          tr s
  | [], done, _ => by
      refine runs_pure rfl fun tr s _ ⟨hP, hlt, howner, hpub, hgood⟩ =>
        ⟨hP, hlt, howner, hpub, fun p hp hdone => hgood p hp ?_⟩
      exact hdone.resolve_right fun ⟨_, _, hmem, _⟩ => nomatch hmem
  | seg :: rest, done, hsegs => by
      refine Runs.bind (fill_runs hF hflags hd fun tr s hs hP =>
        hsegs tr s hs hP seg List.mem_cons_self) fun st => ?_
      split
      next hok =>
        refine (fill_leaves hF hflags hd rest _ fun tr s hs hP seg' h' =>
          hsegs tr s hs hP seg' (List.mem_cons_of_mem _ h')).post ?_
        rintro st' tr s _ ⟨hP, hlt, howner, hpub, hgood⟩
        refine ⟨hP, hlt, howner, hpub, fun p hp hdone => hgood p hp ?_⟩
        rcases hdone with hdone | ⟨hst, seg', hmem, hcover⟩
        · exact Or.inl (Or.inl hdone)
        · rcases List.mem_cons.mp hmem with rfl | hmem
          · exact Or.inl (Or.inr ⟨hok, hcover⟩)
          · exact Or.inr ⟨hst, seg', hmem, hcover⟩
      next hfail =>
        refine runs_pure rfl fun tr s _ ⟨hP, hlt, howner, hpub, hgood⟩ =>
          ⟨hP, hlt, howner, hpub, fun p hp hdone => hgood p hp ?_⟩
        exact hdone.imp_right fun hdone => absurd hdone.1 hfail

/-- A disk block that has all bytes of the block is published. -/
theorem setDiskBlock_runs (hF : Lasting su.flags V F) (hfree : h.Free) (hr : 0 < h.items r)
    (hd : 0 < h.disks d) {key : BlockKey}
    (hin : Gets su.flags V F (InItem su.flags r key.blockIndex)) {done : Nat → Prop}
    (hall : Gets su.flags V F fun _ s => ∀ p < (s.part su.flags r key.blockIndex).length, done p) :
    Runs su.flags V t h (fun tr s => F tr s ∧ Filled su.flags d r key.blockIndex done tr s)
      (setDiskBlock su r key d) (fun _ => h)
      fun _ tr s => F tr s ∧ WholeOf su.flags r key.blockIndex tr s :=
  Runs.bind (lockFilled_runs hF hfree hd) fun _ =>
    Runs.bind (publishFilled_runs (h := h.lock (su.mutex key)) hF hr hd hin hall) fun _ =>
      unlockBlock_runs (hF.and lasting_wholeOf)

/-! ## Flushing a block -/

theorem flushNew_leaves (hF : Lasting su.flags V F) (hflags : Sized su.flags) (hfree : h.Free)
    (hr : 0 < h.items r) {key : BlockKey}
    (hin : Gets su.flags V F (InItem su.flags r key.blockIndex)) {segs : List BlockSegment}
    (hsegs : Gets su.flags V F (AllData su.flags segs r key.blockIndex)) :
    Leaves su.flags V t h F (flushNew su r key segs) := by
  refine Runs.bind (getItem_runs hF hr) fun item => Runs.forget (K := fun _ => Described r item) ?_
  have hF₁ := hF.and (@lasting_described su.flags V r item)
  refine Runs.bind (check_runs hF₁ hfree) fun _ => Runs.given (fun hfull => Runs.forget
    (K := fun _ _ _ => True) ?_) fun _ _ _ _ hP => hP.2
  refine Runs.post (Runs.pre ?_ fun _ _ _ hP => hP.1) fun _ _ _ _ hP => ⟨hP, trivial⟩
  refine Runs.bind (allocDiskBlock_runs hF₁ hfree hin.left) fun x => ?_
  cases x with
  | none => exact runs_pure rfl (.refl _)
  | some d =>
      have hd : 0 < (h.disk d).disks d := by
        rw [Held.disk_disks, if_pos rfl]
        exact Nat.succ_pos _
      refine Runs.bind (fill_leaves (h := h.disk d) hF₁ hflags hd segs _ hsegs.left) fun st => ?_
      refine Runs.bind (runs_when (G := fun _ tr s => F tr s ∧ Described r item tr s)
        (fun hok => ?_) fun _ => (Gets.refl _).left) fun _ => ?_
      · refine Runs.forget (setDiskBlock_runs (h := h.disk d) hF₁ hfree hr hd hin.left
          fun tr s hs hP p hp => ?_)
        obtain ⟨hlt, _, hsize⟩ := hP.2
        have hvalue := hs.contents.value r hlt
        have hblock := blockSizeOf_eq (V.le hvalue) (hin tr s hs hP.1).2
        rw [hsize, ← of_decide_eq_true hfull] at hblock
        exact Or.inr ⟨hok, continuous_covers (Nat.zero_le p) (hblock ▸ hp)⟩
      · exact Runs.bind (dropDisk_runs hF₁) fun _ => runs_pure rfl (.refl _)

theorem flushOver_leaves (hF : Lasting su.flags V F) (hflags : Sized su.flags) (hfree : h.Free)
    (hr : 0 < h.items r) {key : BlockKey}
    (hin : Gets su.flags V F (InItem su.flags r key.blockIndex)) {segs : List BlockSegment}
    (hsegs : Gets su.flags V F (AllData su.flags segs r key.blockIndex))
    (hpub : Gets su.flags V F (PublishedOf d r key.blockIndex)) :
    Runs su.flags V t (h.disk d) F (flushOver su r key segs d) (fun _ => h) fun _ => F := by
  have hd : 0 < (h.disk d).disks d := by
    rw [Held.disk_disks, if_pos rfl]
    exact Nat.succ_pos _
  have hdisk : Gets su.flags V F (DiskOf d r key.blockIndex) := fun tr s hs hP =>
    PublishedOf.diskOf tr s hs (hpub tr s hs hP)
  refine Runs.bind (lockBlock_runs (h := h.disk d) hF hfree) fun _ => Runs.bind
    (writeOver_leaves (h := (h.disk d).lock (su.mutex key)) hF hflags hd hdisk segs hsegs) fun st => ?_
  refine Runs.bind (leaves_when fun _ => Runs.forget (publishAgain_runs
    (h := (h.disk d).lock (su.mutex key)) hF hr hd hin hpub)) fun _ => ?_
  exact Runs.bind (unlockBlock_runs hF) fun _ => Runs.bind (dropDisk_runs hF) fun _ =>
    runs_pure rfl (.refl F)

theorem flushBlockSegments_leaves (hF : Lasting su.flags V F) (hflags : Sized su.flags)
    (hfree : h.Free) (hr : 0 < h.items r) (hlinked : Gets su.flags V F (Linked r)) {key : BlockKey}
    (hin : Gets su.flags V F (InItem su.flags r key.blockIndex)) {segs : List BlockSegment}
    (hsegs : Gets su.flags V F (AllData su.flags segs r key.blockIndex)) :
    Leaves su.flags V t h F (flushBlockSegments su r key segs) := by
  refine Runs.bind (lockBlock_runs hF hfree) fun _ =>
    Runs.bind (holdDisk_runs (h := h.lock (su.mutex key)) hF hr hin) fun disk => ?_
  cases disk with
  | none =>
      refine Runs.pre ?_ fun _ _ _ hP => hP.1
      refine Runs.bind (unlockBlock_runs hF) fun _ =>
        Runs.bind (flushNew_leaves hF hflags hfree hr hin hsegs) fun st => ?_
      exact Runs.bind (setMemBlock_leaves hF hfree hr hlinked hin fun _ h => nomatch h) fun _ =>
        runs_pure rfl (.refl F)
  | some d =>
      have hF' := hF.and (@lasting_publishedOf su.flags V r key.blockIndex d)
      refine Runs.pre (F := fun tr s => F tr s ∧ PublishedOf d r key.blockIndex tr s)
        (Runs.forget (K := fun _ => PublishedOf d r key.blockIndex) ?_)
        fun tr s _ hP => ⟨hP.1, hP.2 d rfl⟩
      refine Runs.bind (unlockBlock_runs (h := h.disk d) hF') fun _ =>
        Runs.bind (flushOver_leaves hF' hflags hfree hr hin.left hsegs.left (Gets.refl _).right)
          fun st => ?_
      exact Runs.bind (setMemBlock_leaves hF' hfree hr hlinked.left hin.left fun _ h => nomatch h)
        fun _ => runs_pure rfl (.refl _)

theorem deleteBlock_leaves (hF : Lasting su.flags V F) (hfree : h.Free) (hr : 0 < h.items r)
    (hlinked : Gets su.flags V F (Linked r)) {key : BlockKey}
    (hin : Gets su.flags V F (InItem su.flags r key.blockIndex)) :
    Leaves su.flags V t h F (deleteBlock su r key) :=
  Runs.bind (clearBlock_leaves hF hfree hr hlinked hin) fun _ =>
    Runs.bind (releaseIfEmpty_leaves hF hfree hr hlinked) fun _ =>
      leaves_when fun _ => removeCacheItem_leaves hF hfree hr hlinked

theorem flushAdmitted_leaves (hF : Lasting su.flags V F) (hflags : Sized su.flags)
    (hfree : h.Free) (hr : 0 < h.items r) (hlinked : Gets su.flags V F (Linked r)) {key : BlockKey}
    (hin : Gets su.flags V F (InItem su.flags r key.blockIndex))
    (hm : Gets su.flags V F (MemOf m r key.blockIndex)) :
    Leaves su.flags V t h F (flushAdmitted su r key m) := by
  refine Runs.bind (listSegments_runs hF hflags.toGeometry hm) fun refs =>
    Runs.bind (getSegments_runs refs hF) fun segs =>
      Runs.forget (K := fun _ => AllData su.flags segs r key.blockIndex) ?_
  have hF' := hF.and (@lasting_allData V r key.blockIndex su.flags segs)
  refine Runs.bind (hasDisk_runs hF' hr hin.left) fun present =>
    Runs.bind (Runs.forget (getItem_runs hF' hr)) fun item => ?_
  split
  · exact deleteBlock_leaves hF' hfree hr hlinked.left hin.left
  · exact Runs.bind (flushBlockSegments_leaves hF' hflags hfree hr hlinked.left hin.left
      (Gets.refl _).right) fun _ => runs_pure rfl (.refl _)

theorem flushBlock_leaves (hF : Lasting su.flags V F) (hflags : Sized su.flags)
    (hfree : h.Free) (hr : 0 < h.items r) (hlinked : Gets su.flags V F (Linked r)) {key : BlockKey}
    (hin : Gets su.flags V F (InItem su.flags r key.blockIndex)) :
    Leaves su.flags V t h F (flushBlock su r key) := by
  refine Runs.bind (isReleased_leaves hF hfree hr) fun released => ?_
  split
  · exact runs_pure rfl (.refl F)
  refine Runs.bind (getMem_runs hF hr hin) fun x => ?_
  cases x with
  | none => exact runs_pure rfl (Gets.refl F).left
  | some m =>
      have hF' := hF.and (@lasting_memOf su.flags V r key.blockIndex m)
      refine Runs.pre (F := fun tr s => F tr s ∧ MemOf m r key.blockIndex tr s)
        (Runs.forget (K := fun _ => MemOf m r key.blockIndex) ?_)
        fun tr s _ hP => ⟨hP.1, hP.2 m rfl⟩
      refine Runs.bind (ask_runs hF') fun admission => ?_
      cases admission with
      | skip => exact runs_pure rfl (.refl _)
      | delete => exact deleteBlock_leaves hF' hfree hr hlinked.left hin.left
      | flush =>
          exact flushAdmitted_leaves hF' hflags hfree hr hlinked.left hin.left (Gets.refl _).right

/-! ## Memory eviction -/

theorem dropMemBlock_leaves (hF : Lasting su.flags V F) (hr : 0 < h.items r)
    (hlinked : Gets su.flags V F (Linked r)) (hin : Gets su.flags V F (InItem su.flags r i)) :
    Leaves su.flags V t h F (dropMemBlock r i) := by
  refine Runs.bind (Runs.forget (getMem_runs hF hr hin)) fun x => ?_
  cases x with
  | none => exact runs_pure rfl (.refl F)
  | some m =>
      refine Runs.bind (memState_runs hF) fun state => ?_
      split
      · exact runs_pure rfl (.refl F)
      refine Runs.bind (hasDisk_runs hF hr hin) fun present => ?_
      split
      · exact Runs.bind (setMem_runs hF hr hin hlinked.stale fun _ h => nomatch h) fun _ =>
          runs_pure rfl (.refl F)
      · exact runs_pure rfl (.refl F)

theorem processEvictedMemBlock_leaves (hF : Lasting su.flags V F) (hflags : Sized su.flags)
    (hfree : h.Free) (key : BlockKey) : Leaves su.flags V t h F (processEvictedMemBlock su key) := by
  refine Runs.bind (find_runs hF) fun x => ?_
  cases x with
  | none => exact runs_pure rfl (.refl F)
  | some r =>
      have hr : 0 < (h.item r).items r := by
        rw [Held.item_items, if_pos rfl]
        exact Nat.succ_pos _
      have hF₁ := hF.and (@lasting_sought su.flags V r key.cacheId)
      refine Runs.forget (K := fun _ => Sought key.cacheId r) ?_
      refine Runs.bind (lockBlock_runs (h := h.item r) hF₁ hfree) fun _ => Runs.bind
        (getItem_runs (h := (h.item r).lock (su.mutex key)) hF₁ hr) fun item =>
          Runs.forget (K := fun _ => Described r item) ?_
      have hF' := hF₁.and (@lasting_described su.flags V r item)
      have hlinked : Gets su.flags V _ (Linked r) :=
        ((Sought.linked (k := key.cacheId)).right (F := F)).left (G := Described r item)
      split
      next =>
        -- the key is one of an older item
        refine Runs.pure_bind (Runs.bind (unlockBlock_runs (h := h.item r) hF') fun _ => ?_)
        exact Runs.pure_bind (dropItem_runs hF')
      next hlt =>
        have hin : Gets su.flags V _ (InItem su.flags r key.blockIndex) :=
          (Described.inItem (V := V) (r := r) (Nat.not_le.mp hlt)).right
            (F := fun tr s => F tr s ∧ Sought key.cacheId r tr s)
        refine Runs.bind (dropMemBlock_leaves (h := (h.item r).lock (su.mutex key)) hF' hr hlinked
          hin) fun flush => ?_
        refine Runs.bind (unlockBlock_runs hF') fun _ => Runs.bind (leaves_when fun _ =>
          flushBlock_leaves (h := h.item r) hF' hflags hfree hr hlinked hin) fun _ =>
            dropItem_runs hF'

theorem evictMemBlock_leaves (hF : Lasting su.flags V F) (hflags : Sized su.flags)
    (hfree : h.Free) : Leaves su.flags V t h F (evictMemBlock su) :=
  Runs.bind (ask_runs hF) fun _ => runs_forEach fun key _ =>
    processEvictedMemBlock_leaves hF hflags hfree key

theorem allocCacheItem_runs (hF : Lasting su.flags V F) (hflags : Sized su.flags) (hfree : h.Free)
    {cacheKey : CacheKey} {value : IOBuf} (hvalue : V.Has cacheKey value) :
    Runs su.flags V t h F (allocCacheItem su cacheKey value) (fun a => a.elim h h.item)
      fun a tr s => F tr s ∧ ∀ r, a = some r → IsItem r cacheKey value tr s ∧ Unreleased r tr s :=
  runs_retry (newItem_runs hF hvalue) rfl (fun _ _ _ hP => ⟨hP, fun _ h => nomatch h⟩)
    (Gets.refl F).left (evictMemBlock_leaves hF hflags hfree) _

theorem allocBlockSegment_runs (hF : Lasting su.flags V F) (hflags : Sized su.flags)
    (hfree : h.Free) {offset size : Nat} {buf : IOBuf} :
    Runs su.flags V t h F (allocBlockSegment su offset size buf) (fun _ => h)
      fun a tr s => F tr s ∧ ∀ g, a = some g → IsSegment g ⟨offset, size, buf⟩ tr s :=
  runs_retry (newSegment_runs hF) rfl (fun _ _ _ hP => ⟨hP, fun _ h => nomatch h⟩)
    (Gets.refl F).left (evictMemBlock_leaves hF hflags hfree) _

end Sharing

end StarCache
