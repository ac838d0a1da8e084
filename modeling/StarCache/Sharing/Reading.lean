import StarCache.Sharing.Promoting

/-!
# Reading shared blocks

A read goes block by block, and between the locks other threads flush, evict, promote or remove
what it reads. What it returns is the range of the object all the same, since what it gets from a
memory block or from a disk block is always a part of the object.
-/

namespace StarCache

namespace Sharing

open Discipline Function Shared MachineInt StarCacheImpl

variable {su : Setup} {V : Objects} {t : Nat} {h : Held} {F : Knowledge} {r : ItemRef} {i : Nat}
  {cacheKey : CacheKey} {value : IOBuf} {lo hi : Nat} {disk : Option DiskRef}

theorem dropDiskBlock_runs (hF : Lasting su.flags V F) :
    Runs su.flags V t (disk.elim h h.disk) F (dropDiskBlock disk) (fun _ => h) fun _ => F := by
  cases disk with
  | none => exact runs_pure rfl (.refl F)
  | some d => exact dropDisk_runs hF

/-! ## Merging -/

/-- The disk block that a read may use. -/
structure Usable (flags : Flags) (V : Objects) (h : Held) (F : Knowledge) (r : ItemRef) (i : Nat)
    (disk : Option DiskRef) : Prop where
  held : ∀ d, disk = some d → 0 < h.disks d
  published : ∀ d, disk = some d → Gets flags V F (PublishedOf d r i)

theorem readGap_runs (hF : Lasting su.flags V F) (hflags : Sized su.flags) {d : DiskRef}
    (hd : 0 < h.disks d) (hitem : Gets su.flags V F (IsItem r cacheKey value))
    (hpub : Gets su.flags V F (PublishedOf d r i)) {p : ReadProgress} {c size : Nat}
    (hcursor : p.cursor = c)
    (hrange : SliceRange su.flags (blockPart su.flags value i) c (c + size)) :
    Runs su.flags V t h F (readGap d p size) (fun _ => h) fun a tr s => F tr s ∧
      (a.1.ok = true → ∃ data,
        SegmentOk su.flags (blockPart su.flags value i) ⟨c, size, data⟩ ∧
        a.2 = { p with
          buf := p.buf ++ data.take size
          diskSegments := p.diskSegments ++ [⟨c, size, data⟩] }) := by
  have hle := hflags.block_le
  have hlen := length_blockPart_le su.flags value i
  have hlt := hrange.lt
  have hfit := hrange.le
  have hoffset : u32 p.cursor = c := by
    rw [hcursor]
    exact u32_of_lt (by omega)
  unfold readGap
  rw [hoffset]
  refine Runs.bind (readDisk_runs hF hflags hd hitem hpub hrange.aligned (by omega) hfit
    hrange.ends) fun result => ?_
  split
  next hok => exact runs_pure rfl fun _ _ _ hP => ⟨hP.1, fun _ => ⟨result.2, hP.2 hok, rfl⟩⟩
  next hfail => exact runs_pure rfl fun _ _ _ hP => ⟨hP.1, fun hok => absurd hok hfail⟩

/-- What the merge has read: up to a hole, or up to a gap at the end. -/
def MergeEnd (flags : Flags) (bytes : IOBuf) (lo hi : Nat) (disk : Option DiskRef)
    (p : ReadProgress) : Prop :=
  (p.holeExist = true ∧ disk = none ∧ ∀ seg ∈ p.diskSegments, SegmentOk flags bytes seg) ∨
    ∃ slices c, Merged flags bytes (fun _ => True) slices lo c p ∧ c ≤ hi ∧ (flags.sliceSize ∣ c ∨ c = hi) ∧
      Gap flags slices c hi

/-- A cut lies within the block. -/
theorem cut_offset_lt {flags : Flags} {bytes : IOBuf} {seg : BlockSegment}
    (hcut : IsCut flags bytes seg) : seg.offset < bytes.length := by
  have hpos := hcut.pos
  have hlength := congrArg List.length hcut.content
  rw [List.length_take, List.length_drop] at hlength
  omega

theorem mergeSegments_runs (hF : Lasting su.flags V F) (hflags : Sized su.flags)
    (hdisk : Usable su.flags V h F r i disk)
    (hitem : Gets su.flags V F (IsItem r cacheKey value)) {slices : List (Option SegmentRef)}
    (segs : List BlockSegment) (p : ReadProgress) (c : Nat)
    (htiles : Tiles su.flags (blockPart su.flags value i) slices c segs hi)
    (hmerged : Merged su.flags (blockPart su.flags value i) (fun _ => True) slices lo c p)
    (hc : su.flags.sliceSize ∣ c ∨ c = hi) :
    Runs su.flags V t h F (mergeSegments disk segs p) (fun _ => h) fun a tr s => F tr s ∧
      (a.1.ok = true → MergeEnd su.flags (blockPart su.flags value i) lo hi disk a.2) := by
  induction segs generalizing p c with
  | nil =>
      exact runs_pure rfl fun _ _ _ hP =>
        ⟨hP, fun _ => Or.inr ⟨slices, c, hmerged, htiles.1, hc, htiles.2⟩⟩
  | cons seg rest ih =>
      obtain ⟨hle, hgap, hcut, hend, hrest⟩ := htiles
      unfold mergeSegments
      rw [hmerged.cursor]
      split
      next hlt =>
        have hlt : c < seg.offset := Int.ofNat_lt.mp hlt
        cases disk with
        | none =>
            refine runs_pure rfl fun _ _ _ hP => ⟨hP, fun _ => Or.inl ⟨rfl, rfl, ?_⟩⟩
            exact fun seg hseg => hmerged.segments.segmentOk hseg
        | some d =>
            have hin := cut_offset_lt hcut
            have hlen := length_blockPart_le su.flags value i
            have hblock := hflags.block_le
            have hhi := hrest.le
            have hsize : u32 ((seg.offset : Int) - c) = seg.offset - c := by
              rw [← Int.ofNat_sub hle]
              exact u32_of_lt (by omega)
            have hsum : c + (seg.offset - c) = seg.offset := Nat.add_sub_cancel' hle
            have hrange : SliceRange su.flags (blockPart su.flags value i) c
                (c + (seg.offset - c)) := by
              rw [hsum]
              exact ⟨hc.resolve_right (by omega), hlt, Nat.le_of_lt hin, Or.inl hcut.aligned⟩
            dsimp only
            rw [hsize]
            refine Runs.bind (readGap_runs hF hflags (hdisk.held d rfl) hitem
              (hdisk.published d rfl) hmerged.cursor hrange) fun result => ?_
            split
            next hok =>
              refine Runs.given (p := ∃ data,
                SegmentOk su.flags (blockPart su.flags value i) ⟨c, seg.offset - c, data⟩ ∧
                result.2 = { p with
                  buf := p.buf ++ data.take (seg.offset - c)
                  diskSegments := p.diskSegments ++ [⟨c, seg.offset - c, data⟩] }) ?_
                fun _ _ _ _ hP => hP.2 hok
              rintro ⟨data, hdata, hp⟩
              refine Runs.pre ?_ (Gets.refl F).left
              have hnext := hmerged.gap hdata.part (Or.inl hdata.ends) (hsum.symm ▸ hgap)
              rw [hp]
              exact ih _ _ hrest (hnext.append hsum hcut.content) hend
            next hfail => exact runs_pure rfl fun _ _ _ hP => ⟨hP.1, fun hok => absurd hok hfail⟩
      next hge =>
        have hc : c = seg.offset := Nat.le_antisymm hle (Int.ofNat_le.mp (Int.not_lt.mp hge))
        exact ih _ _ hrest (hmerged.append hc hcut.content) hend

/-- What a read of a block gets: when it is complete, it is the range of the block. -/
def Answered (flags : Flags) (bytes : IOBuf) (lo size : Nat) (p : ReadProgress) : Prop :=
  (∀ seg ∈ p.diskSegments, SegmentOk flags bytes seg) ∧
    (p.holeExist = false → size ≤ p.buf.length → p.buf = (bytes.drop lo).take size)

theorem merged_length_buf {flags : Flags} {bytes : IOBuf} {slices : List (Option SegmentRef)}
    {c : Nat} {p : ReadProgress} (hmerged : Merged flags bytes (fun _ => True) slices lo c p)
    (hle : c ≤ bytes.length) : p.buf.length = c - lo := by
  rw [hmerged.buf, List.length_take, List.length_drop]
  omega

theorem readRest_runs (hF : Lasting su.flags V F) (hflags : Sized su.flags)
    (hdisk : Usable su.flags V h F r i disk)
    (hitem : Gets su.flags V F (IsItem r cacheKey value)) {size : Nat}
    (hrange : SliceRange su.flags (blockPart su.flags value i) lo (lo + size)) {p : ReadProgress}
    (hp : MergeEnd su.flags (blockPart su.flags value i) lo (lo + size) disk p) :
    Runs su.flags V t h F (readRest disk size p) (fun _ => h) fun a tr s => F tr s ∧
      (a.1.ok = true → Answered su.flags (blockPart su.flags value i) lo size a.2) := by
  have hfit := hrange.le
  have hdone : ∀ {slices c}, Merged su.flags (blockPart su.flags value i) (fun _ => True) slices lo c p →
      c ≤ lo + size → Answered su.flags (blockPart su.flags value i) lo size p := by
    intro slices c hmerged hle
    refine ⟨fun seg hseg => hmerged.segments.segmentOk hseg, fun _ hfull => ?_⟩
    have hlength := merged_length_buf hmerged (Nat.le_trans hle hfit)
    have hbuf := hmerged.buf
    have hc := hmerged.le
    rwa [show c - lo = size by omega] at hbuf
  unfold readRest
  cases disk with
  | none =>
      refine runs_pure rfl fun _ _ _ hP => ⟨hP, fun _ => ?_⟩
      rcases hp with ⟨hhole, _, hsegs⟩ | ⟨slices, c, hmerged, hle, _, _⟩
      · exact ⟨hsegs, fun h => absurd (hhole.symm.trans h) (by decide)⟩
      · exact hdone hmerged hle
  | some d =>
      obtain ⟨_, hnone, _⟩ | ⟨slices, c, hmerged, hle, hc, hgap⟩ := hp
      · cases hnone
      dsimp only
      have hlength := merged_length_buf hmerged (Nat.le_trans hle hfit)
      have hlo := hmerged.le
      split
      next hlt =>
        have hlen := length_blockPart_le su.flags value i
        have hblock := hflags.block_le
        have hsize : u32 ((size : Int) - p.buf.length) = lo + size - c := by
          rw [hlength, show (size : Int) - (c - lo : Nat) = (lo + size - c : Nat) by omega]
          exact u32_of_lt (by omega)
        have hsum : c + (lo + size - c) = lo + size := Nat.add_sub_cancel' hle
        have hrange' : SliceRange su.flags (blockPart su.flags value i) c
            (c + (lo + size - c)) := by
          rw [hsum]
          exact ⟨hc.resolve_right (by omega), by omega, hfit, hrange.ends⟩
        rw [hsize]
        refine (readGap_runs hF hflags (hdisk.held d rfl) hitem (hdisk.published d rfl)
          hmerged.cursor hrange').post ?_
        rintro a tr s _ ⟨hP, hgot⟩
        refine ⟨hP, fun hok => ?_⟩
        obtain ⟨data, hdata, ha⟩ := hgot hok
        have hnext := hmerged.gap hdata.part (Or.inl hdata.ends) (hsum.symm ▸ hgap)
        rw [ha]
        refine ⟨fun seg hseg => hnext.segments.segmentOk hseg, fun _ _ => ?_⟩
        have hbuf := hnext.buf
        rwa [hsum, Nat.add_sub_cancel_left] at hbuf
      next => exact runs_pure rfl fun _ _ _ hP => ⟨hP, fun _ => hdone hmerged hle⟩

theorem readLocked_runs (hF : Lasting su.flags V F) (hflags : Sized su.flags)
    (hdisk : Usable su.flags V h F r i disk)
    (hitem : Gets su.flags V F (IsItem r cacheKey value)) {mem : Option MemRef}
    (hmem : ∀ m, mem = some m → Gets su.flags V F (MemOf m r i)) {size : Nat}
    (hrange : SliceRange su.flags (blockPart su.flags value i) lo (lo + size)) :
    Runs su.flags V t h F (readLocked mem disk lo size) (fun _ => h) fun a tr s => F tr s ∧
      (a.1.ok = true → Answered su.flags (blockPart su.flags value i) lo size a.2) := by
  have hlt := hrange.lt
  have hmemory : Runs su.flags V t h F (readMemBlock mem lo size) (fun _ => h) fun segs tr s =>
      F tr s ∧ ∃ slices, Tiles su.flags (blockPart su.flags value i) slices lo segs (lo + size) := by
    cases mem with
    | none =>
        refine runs_pure rfl fun _ _ _ hP => ⟨hP, [], Nat.le_of_lt hlt, fun k _ _ ⟨g, hg⟩ => ?_⟩
        cases hg
    | some m =>
        unfold readMemBlock
        dsimp only
        rw [if_neg (by omega)]
        exact readMem_runs hF hflags.toGeometry hitem (hmem m rfl) hrange
  refine Runs.bind hmemory fun segs => Runs.given (fun ⟨slices, htiles⟩ => ?_)
    fun _ _ _ _ hP => hP.2
  refine Runs.pre ?_ (Gets.refl F).left
  have hstart : Merged su.flags (blockPart su.flags value i) (fun _ => True) slices lo lo { cursor := lo } := by
    refine ⟨rfl, Nat.le_refl _, ?_, ⟨?_, List.Pairwise.nil, ?_, ?_⟩, ?_, rfl⟩
    · rw [Nat.sub_self]
      rfl
    all_goals exact fun _ h => nomatch h
  refine Runs.bind (mergeSegments_runs hF hflags hdisk hitem segs _ lo htiles hstart
    (Or.inl hrange.aligned)) fun merged => ?_
  split
  next hok =>
    refine Runs.given (fun hend => ?_) fun _ _ _ _ hP => hP.2 hok
    exact (readRest_runs hF hflags hdisk hitem hrange hend).pre (Gets.refl F).left
  next hfail => exact runs_pure rfl fun _ _ _ hP => ⟨hP.1, fun hok => absurd hok hfail⟩

/-! ## Blocks -/

theorem readUnlocked_runs (hF : Lasting su.flags V F) (hflags : Sized su.flags) (hfree : h.Free)
    (hr : 0 < h.items r) (hlinked : Gets su.flags V F (Linked r)) {key : BlockKey} {size : Nat}
    {p : ReadProgress} (hin : Gets su.flags V F (InItem su.flags r key.blockIndex))
    (hsegs : Gets su.flags V F (AllData su.flags p.diskSegments r key.blockIndex)) :
    Runs su.flags V t h F (readUnlocked su r key size p) (fun _ => h) fun st tr s => F tr s ∧
      (st.ok = true → size ≤ p.buf.length ∧ p.holeExist = false) := by
  unfold readUnlocked
  split
  · exact runs_pure rfl fun _ _ _ hP => ⟨hP, fun hok => nomatch hok⟩
  next hfull =>
    rw [not_or, Nat.not_lt, Bool.not_eq_true] at hfull
    exact Runs.bind (ask_runs hF) fun _ => Runs.bind (leaves_when fun _ =>
      promoteBlockSegments_leaves hF hflags hfree hr hlinked hin hsegs) fun _ =>
        runs_pure rfl fun _ _ _ hP => ⟨hP, fun _ => hfull⟩

theorem readHolding_runs (hF : Lasting su.flags V F) (hflags : Sized su.flags) (hfree : h.Free)
    (hr : 0 < h.items r) (hlinked : Gets su.flags V F (Linked r))
    (hitem : Gets su.flags V F (IsItem r cacheKey value)) {key : BlockKey}
    (hi : key.blockIndex < blockCountOf su.flags value.length) {mem : Option MemRef}
    (hmem : ∀ m, mem = some m → Gets su.flags V F (MemOf m r key.blockIndex))
    (hpub : ∀ d, disk = some d → Gets su.flags V F (PublishedOf d r key.blockIndex)) {size : Nat}
    (hrange : SliceRange su.flags (blockPart su.flags value key.blockIndex) lo (lo + size)) :
    Runs su.flags V t ((disk.elim h h.disk).lock (su.mutex key)) F
      (readHolding su r key lo size mem disk) (fun _ => h) fun a tr s => F tr s ∧
        (a.1.ok = true →
          a.2 = ((blockPart su.flags value key.blockIndex).drop lo).take size) := by
  have hin : Gets su.flags V F (InItem su.flags r key.blockIndex) := fun tr s hs hP =>
    IsItem.inItem hi tr s hs (hitem tr s hs hP)
  have hfree' : (disk.elim h h.disk).Free := by cases disk <;> exact hfree
  have hr' : 0 < (disk.elim h h.disk).items r := by cases disk <;> exact hr
  have hdisk : Usable su.flags V ((disk.elim h h.disk).lock (su.mutex key)) F r key.blockIndex
      disk := by
    refine ⟨fun d hd => ?_, hpub⟩
    subst hd
    show 0 < (h.disk d).disks d
    rw [Held.disk_disks, if_pos rfl]
    exact Nat.succ_pos _
  refine Runs.bind (readLocked_runs hF hflags hdisk hitem hmem hrange) fun result => ?_
  split
  next hok =>
    refine Runs.given (fun hanswer => Runs.pre ?_ (Gets.refl F).left) fun _ _ _ _ hP => hP.2 hok
    have hsegs : Gets su.flags V F (AllData su.flags result.2.diskSegments r key.blockIndex) := by
      intro tr s hs hP seg hseg
      obtain ⟨hlt, _, hvalue⟩ := hitem tr s hs hP
      refine ⟨hlt, ?_⟩
      unfold part
      rw [hvalue]
      exact hanswer.1 seg hseg
    refine Runs.bind (unlockBlock_runs hF) fun _ =>
      Runs.bind (readUnlocked_runs hF hflags hfree' hr' hlinked hin hsegs) fun st => ?_
    refine Runs.given (fun hst => Runs.pre ?_ (Gets.refl F).left) fun _ _ _ _ hP => hP.2
    refine Runs.bind (dropDiskBlock_runs hF) fun _ =>
      runs_pure rfl fun _ _ _ hP => ⟨hP, fun hok => ?_⟩
    exact hanswer.2 (hst hok).2 (hst hok).1
  next hfail =>
    have hheld : disk.elim (h.lock (su.mutex key)) (h.lock (su.mutex key)).disk =
        (disk.elim h h.disk).lock (su.mutex key) := by cases disk <;> rfl
    rw [← hheld]
    refine Runs.pre ?_ (Gets.refl F).left
    refine Runs.bind (dropDiskBlock_runs hF) fun _ => Runs.bind (unlockBlock_runs hF) fun _ => ?_
    exact runs_pure rfl fun _ _ _ hP => ⟨hP, fun hok => absurd hok hfail⟩

theorem readBlock_runs (hF : Lasting su.flags V F) (hflags : Sized su.flags) (hfree : h.Free)
    (hr : 0 < h.items r) (hlinked : Gets su.flags V F (Linked r))
    (hitem : Gets su.flags V F (IsItem r cacheKey value)) {key : BlockKey}
    (hi : key.blockIndex < blockCountOf su.flags value.length) {size : Nat}
    (hrange : SliceRange su.flags (blockPart su.flags value key.blockIndex) lo (lo + size)) :
    Runs su.flags V t h F (readBlock su r key lo size) (fun _ => h) fun a tr s => F tr s ∧
      (a.1.ok = true →
        a.2 = ((blockPart su.flags value key.blockIndex).drop lo).take size) := by
  have hin : Gets su.flags V F (InItem su.flags r key.blockIndex) := fun tr s hs hP =>
    IsItem.inItem hi tr s hs (hitem tr s hs hP)
  refine Runs.bind (lockBlock_runs hF hfree) fun _ =>
    Runs.bind (getMem_runs (h := h.lock (su.mutex key)) hF hr hin) fun mem => ?_
  have hF₁ := hF.and (persistent_all (D := discipline su.flags V) fun m =>
    persistent_all fun _ : mem = some m => @lasting_memOf su.flags V r key.blockIndex m)
  refine Runs.bind (holdDisk_runs (h := h.lock (su.mutex key)) hF₁ hr hin.left) fun disk => ?_
  have hF₂ := hF₁.and (persistent_all (D := discipline su.flags V) fun d =>
    persistent_all fun _ : disk = some d => @lasting_publishedOf su.flags V r key.blockIndex d)
  have hheld : disk.elim (h.lock (su.mutex key)) (h.lock (su.mutex key)).disk =
      (disk.elim h h.disk).lock (su.mutex key) := by cases disk <;> rfl
  rw [hheld]
  refine (readHolding_runs hF₂ hflags hfree hr hlinked.left.left hitem.left.left hi
    (fun m hm tr s _ hP => hP.1.2 m hm) (fun d hd tr s _ hP => hP.2 d hd) hrange).post ?_
  exact fun a tr s _ hP => ⟨hP.1.1.1, hP.2⟩

theorem RangeOk.inItem {flags : Flags} {range : BlockRange} (hrange : RangeOk flags value range) :
    range.blockIndex < blockCountOf flags value.length := by
  have hlt := hrange.2.lt
  have hle := hrange.2.le
  rw [length_blockPart] at hle
  rw [lt_blockCountOf]
  omega

theorem readBlocks_runs (hF : Lasting su.flags V F) (hflags : Sized su.flags) (hfree : h.Free)
    (hr : 0 < h.items r) (hlinked : Gets su.flags V F (Linked r))
    (hitem : Gets su.flags V F (IsItem r cacheKey value)) {id : CacheId} :
    ∀ (ranges : List BlockRange) (buf : IOBuf),
      (∀ range ∈ ranges, RangeOk su.flags value range) →
      Runs su.flags V t h F (readBlocks su id r ranges buf) (fun _ => h) fun a tr s => F tr s ∧
        (a.1.ok = true → a.2 = buf ++ (ranges.map fun range =>
          ((blockPart su.flags value range.blockIndex).drop range.offset.toNat).take
            range.size).flatten)
  | [], buf, _ => runs_pure rfl fun _ _ _ hP => ⟨hP, fun _ => (List.append_nil buf).symm⟩
  | range :: rest, buf, hranges => by
      have hrange := hranges range List.mem_cons_self
      unfold readBlocks
      rw [← Int.toNat_of_nonneg hrange.1]
      refine Runs.bind (readBlock_runs hF hflags hfree hr hlinked hitem (RangeOk.inItem hrange) hrange.2)
        fun result => ?_
      split
      next hok =>
        refine Runs.given (fun hbuf => Runs.pre ?_ (Gets.refl F).left) fun _ _ _ _ hP => hP.2 hok
        refine (readBlocks_runs hF hflags hfree hr hlinked hitem rest _ fun range' h =>
          hranges range' (List.mem_cons_of_mem _ h)).post ?_
        rintro a tr s _ ⟨hP, hrest⟩
        refine ⟨hP, fun hok' => ?_⟩
        rw [hrest hok', hbuf, List.append_assoc, List.map_cons, List.flatten_cons]
      next hfail => exact runs_pure rfl fun _ _ _ hP => ⟨hP.1, fun hok => absurd hok hfail⟩

/-! ## Objects -/

theorem readCacheItem_runs (hF : Lasting su.flags V F) (hflags : Sized su.flags) (hfree : h.Free)
    (hr : 0 < h.items r) (hlinked : Gets su.flags V F (Linked r))
    (hitem : Gets su.flags V F (IsItem r cacheKey value))
    (hvalue : V.Has cacheKey value) {id : CacheId} {o size : Nat}
    (hwrap : o + size < 18446744073709551616) :
    Runs su.flags V t h F (readCacheItem su id r o size) (fun _ => h) fun a tr s => F tr s ∧
      (a.1.ok = true → a.2 = (value.drop o).take size) := by
  have hlen := V.le hvalue
  have haddr := Addressable.of_le hflags.toGeometry hlen
  refine Runs.bind (getItem_runs hF hr) fun item => ?_
  refine Runs.given (p := item.2 = value.length) (fun hsize => Runs.pre ?_ (Gets.refl F).left)
    fun tr s hs _ hP => ?_
  swap
  · obtain ⟨_, _, heq⟩ := hitem tr s hs hP.1
    rw [← heq, hP.2.2.2]
  have hclamp : clampSize value.length o size = min size (value.length - o) :=
    clampSize_eq (by omega) hwrap
  rw [hsize]
  dsimp only
  split
  next hzero =>
    refine runs_pure rfl fun _ _ _ hP => ⟨hP, fun _ => (List.eq_nil_of_length_eq_zero ?_).symm⟩
    rw [List.length_take, List.length_drop, ← hclamp]
    exact hzero
  next hne =>
    have hranges := requestRanges_ok hflags.toGeometry haddr hwrap hne
    generalize hn : clampSize value.length o size = n at hne hranges ⊢
    have hpos : 0 < n := Nat.pos_of_ne_zero hne
    have hfit : o + n ≤ value.length := by omega
    have hrange := alignedRange_eq hpos hfit haddr
    obtain ⟨hitem', hlow, hhigh⟩ := @alignedRange_ok su.flags o n value hpos hfit
    generalize alignedRange su.flags value.length o n = range at hranges hrange ⊢
    subst hrange
    have hle := hitem'.lt
    refine Runs.bind (readBlocks_runs hF hflags hfree hr hlinked hitem _ [] hranges) fun result => ?_
    split
    next hok =>
      refine Runs.given (fun hbuf => Runs.pre ?_ (Gets.refl F).left) fun _ _ _ _ hP => hP.2 hok
      refine Runs.bind (leaves_when fun hbad => ?_) fun _ =>
        runs_pure rfl fun _ _ _ hP => ⟨hP, fun _ => ?_⟩
      · have hlast := of_decide_eq_true hbad
        dsimp only at hlast
        rw [u32_off2block (by omega)] at hlast
        have := Nat.div_le_self (min (((o + n - 1) / su.flags.sliceSize + 1) *
          su.flags.sliceSize - 1) (value.length - 1)) su.flags.blockSize
        omega
      · dsimp only
        rw [hbuf, List.nil_append, hitem'.pieces (by omega),
          show (o : Int) - (o / su.flags.sliceSize * su.flags.sliceSize : Nat) =
            (o - o / su.flags.sliceSize * su.flags.sliceSize : Nat) by omega, u64_of_lt (by omega),
          List.drop_take, List.drop_drop, List.take_take, Nat.add_sub_cancel' hlow,
          Nat.min_eq_left (by omega), ← hn, hclamp]
        rw [← List.length_drop, ← List.take_eq_take_min]
    next hfail => exact runs_pure rfl fun _ _ _ hP => ⟨hP.1, fun hok => absurd hok hfail⟩

end Sharing

end StarCache
