import StarCache.Sharing.Flushing

/-!
# Promoting shared blocks

What a read has got from disk goes to memory: into a memory block that nobody else sees before it
is complete, or under the lock into the one that there is.
-/

namespace StarCache

namespace Sharing

open Discipline Function Shared MachineInt

variable {su : Setup} {V : Objects} {t : Nat} {h : Held} {F : Knowledge} {r : ItemRef} {i : Nat}
  {m : MemRef}

theorem covers_lt {flags : Flags} {bytes : IOBuf} {seg : BlockSegment} (hgeo : Geometry flags)
    (hlen : bytes.length ≤ flags.blockSize) (hseg : SegmentOk flags bytes seg) {k : Nat}
    (hk : seg.Covers flags k) : k < flags.blockSize / flags.sliceSize :=
  hgeo.slice_lt (Nat.lt_of_lt_of_le hk.2 (Nat.le_trans hseg.fits hlen))

/-- The loop of `write_block` sets the slices that the segment covers. -/
theorem mem_sliceIndexes {flags : Flags} {bytes : IOBuf} {seg : BlockSegment}
    (hgeo : Geometry flags) (hlen : bytes.length ≤ flags.blockSize)
    (hseg : SegmentOk flags bytes seg) {k : Int} :
    k ∈ sliceIndexes flags seg ↔ ∃ n : Nat, k = n ∧ seg.Covers flags n := by
  have hfits := hseg.fits
  have hpos := hseg.pos
  have hle := hgeo.block_le
  have hstart : off2slice flags seg.offset = (seg.offset / flags.sliceSize : Nat) :=
    off2slice_natCast (by omega)
  have hu32 : u32 (seg.offset + seg.size - 1) = seg.offset + seg.size - 1 := by
    rw [show (seg.offset + seg.size - 1 : Int) = (seg.offset + seg.size - 1 : Nat) by omega]
    exact u32_of_lt (by omega)
  have hstop : off2slice flags (u32 (seg.offset + seg.size - 1)) =
      ((seg.offset + seg.size - 1) / flags.sliceSize : Nat) := by
    rw [hu32]
    exact off2slice_natCast (by omega)
  have hlong : seg.buf.length ≠ 0 := Nat.ne_of_gt (Nat.lt_of_lt_of_le hpos hseg.long)
  unfold sliceIndexes
  rw [if_neg hlong]
  dsimp only
  rw [hstart, hstop, List.mem_map]
  constructor
  · rintro ⟨n, hn, rfl⟩
    rw [List.mem_range] at hn
    have hcovers := (covers_iff hseg.aligned hpos (seg.offset / flags.sliceSize + n)).mpr (by omega)
    exact ⟨seg.offset / flags.sliceSize + n, by push_cast; rfl, hcovers⟩
  · rintro ⟨n, rfl, hcovers⟩
    have hn := (covers_iff hseg.aligned hpos n).mp hcovers
    refine ⟨n - seg.offset / flags.sliceSize, ?_, ?_⟩
    · rw [List.mem_range]
      omega
    · omega

/-- All slices that the segments cover are set. -/
theorem writeMem_runs (hF : Lasting su.flags V F) (hflags : Sized su.flags)
    (hm : Gets su.flags V F (MemOf m r i)) {refs : List SegmentRef}
    (hrefs : Gets su.flags V F (AllSegments su.flags refs r i)) :
    Runs su.flags V t h F (writeMem su m refs) (fun _ => h)
      fun _ tr s => F tr s ∧ ∀ g ∈ refs, Placed su.flags m g tr s := by
  refine runs_gather (fun _ => lasting_placed) refs hF fun g hg F' hF' hgets => ?_
  have hsegment : Gets su.flags V F' (SegmentOf su.flags g r i) := fun tr s hs hP =>
    hrefs tr s hs (hgets tr s hs hP) g hg
  have hm' : Gets su.flags V F' (MemOf m r i) := fun tr s hs hP => hm tr s hs (hgets tr s hs hP)
  refine Runs.bind (getSegment_runs hF' fun tr s hs hP => (hsegment tr s hs hP).2.1) fun seg => ?_
  have hF₁ := hF'.and (@lasting_isSegment su.flags V g seg)
  refine Runs.given (p := ∃ bytes, bytes.length ≤ su.flags.blockSize ∧
    SegmentOk su.flags bytes seg) ?_ ?_
  · rintro ⟨bytes, hlen, hok⟩
    have hindexes := fun k => mem_sliceIndexes hflags.toGeometry hlen hok (k := k)
    refine (runs_gather (N := fun k : Int => SliceOf m k.toNat) (fun _ => lasting_sliceOf) _ hF₁
      fun k hk F₂ hF₂ hgets₂ => ?_).post ?_
    · obtain ⟨n, rfl, hcovers⟩ := (hindexes k).mp hk
      refine setSlice_runs hF₂ (fun tr s hs hP => hm' tr s hs (hgets₂ tr s hs hP).1)
        (fun tr s hs hP => hsegment tr s hs (hgets₂ tr s hs hP).1)
        (covers_lt hflags.toGeometry hlen hok hcovers) fun tr s hs hP => ?_
      obtain ⟨_, _, heq⟩ := hgets₂ tr s hs hP
      exact heq ▸ hcovers
    · rintro _ tr s _ ⟨⟨hP, hlt, heq⟩, hall⟩
      exact ⟨hP, hlt, fun k hk => hall k ((hindexes k).mpr ⟨k, rfl, heq ▸ hk⟩)⟩
  · rintro tr s hs _ ⟨hP, hseg⟩
    obtain ⟨_, _, hok⟩ := hsegment tr s hs hP
    exact ⟨_, length_blockPart_le .., hseg.2 ▸ hok⟩

theorem allocSegments_runs (hflags : Sized su.flags) (hfree : h.Free) :
    ∀ (segs : List BlockSegment) {F : Knowledge}, Lasting su.flags V F →
      Gets su.flags V F (AllData su.flags segs r i) →
      Runs su.flags V t h F (allocSegments su segs) (fun _ => h)
        fun refs tr s => F tr s ∧ AllSegments su.flags refs r i tr s
  | [], F, hF, _ => runs_pure rfl fun _ _ _ hP => ⟨hP, fun _ h => nomatch h⟩
  | seg :: rest, F, hF, hsegs => by
      refine Runs.bind (allocBlockSegment_runs hF hflags hfree) fun x => ?_
      have hF' := hF.and (persistent_all (D := discipline su.flags V) fun g =>
        persistent_all fun _ : x = some g => @lasting_isSegment su.flags V g seg)
      refine Runs.bind (allocSegments_runs hflags hfree rest hF' fun tr s hs hP seg' h' =>
        hsegs tr s hs hP.1 seg' (List.mem_cons_of_mem _ h')) fun refs => ?_
      refine runs_pure rfl fun tr s hs ⟨⟨hP, hx⟩, hrefs⟩ => ⟨hP, fun g hg => ?_⟩
      rcases List.mem_append.mp hg with hg | hg
      · obtain ⟨hlt, heq⟩ := hx g (Option.mem_toList.mp hg)
        obtain ⟨hr, hok⟩ := hsegs tr s hs hP seg List.mem_cons_self
        exact ⟨hr, hlt, heq ▸ hok⟩
      · exact hrefs g hg

theorem promoteSegments_leaves (hF : Lasting su.flags V F) (hflags : Sized su.flags)
    (hfree : h.Free) (hr : 0 < h.items r) (hlinked : Gets su.flags V F (Linked r)) {key : BlockKey}
    (hin : Gets su.flags V F (InItem su.flags r key.blockIndex)) {refs : List SegmentRef}
    (hrefs : Gets su.flags V F (AllSegments su.flags refs r key.blockIndex)) :
    Leaves su.flags V t h F (promoteSegments su r key refs) := by
  refine Runs.bind (lockBlock_runs hF hfree) fun _ =>
    Runs.bind (getMem_runs (h := h.lock (su.mutex key)) hF hr hin) fun x => ?_
  cases x with
  | none =>
      refine Runs.pre ?_ (Gets.refl F).left
      refine Runs.bind (unlockBlock_runs hF) fun _ =>
        Runs.bind (newMem_runs hF hflags.toGeometry hin) fun m =>
          Runs.forget (K := fun _ => MemOf m r key.blockIndex) ?_
      have hF' := hF.and (@lasting_memOf su.flags V r key.blockIndex m)
      refine Runs.bind (Runs.forget (writeMem_runs hF' hflags (Gets.refl _).right hrefs.left))
        fun _ => ?_
      refine setMemBlock_leaves hF' hfree hr hlinked.left hin.left ?_
      rintro m' ⟨⟩
      exact (Gets.refl _).right
  | some m =>
      have hF' := hF.and (@lasting_memOf su.flags V r key.blockIndex m)
      refine Runs.pre (F := fun tr s => F tr s ∧ MemOf m r key.blockIndex tr s)
        (Runs.forget (K := fun _ => MemOf m r key.blockIndex) ?_)
        fun tr s _ hP => ⟨hP.1, hP.2 m rfl⟩
      exact Runs.bind (Runs.forget (writeMem_runs hF' hflags (Gets.refl _).right hrefs.left))
        fun _ => unlockBlock_runs hF'

theorem promoteBlockSegments_leaves (hF : Lasting su.flags V F) (hflags : Sized su.flags)
    (hfree : h.Free) (hr : 0 < h.items r) (hlinked : Gets su.flags V F (Linked r)) {key : BlockKey}
    (hin : Gets su.flags V F (InItem su.flags r key.blockIndex)) {segs : List BlockSegment}
    (hsegs : Gets su.flags V F (AllData su.flags segs r key.blockIndex)) :
    Leaves su.flags V t h F (promoteBlockSegments su r key segs) := by
  refine Runs.bind (allocSegments_runs hflags hfree segs hF hsegs) fun refs =>
    Runs.forget (K := fun _ => AllSegments su.flags refs r key.blockIndex) ?_
  split
  · exact runs_pure rfl (.refl _)
  · exact promoteSegments_leaves (hF.and lasting_allSegments) hflags hfree hr hlinked.left hin.left
      (Gets.refl _).right

end Sharing

end StarCache
