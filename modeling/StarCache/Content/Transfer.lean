import StarCache.Content.Disk

/-!
# Disk transfers

Specifications of `DiskCache::write_block` and `DiskCache::read_block` in terms of
the slices on disk.
-/

namespace StarCache

open Prog MachineInt

namespace DiskCache

variable {pf : Platform} {D T : Prop} {n₀ : Nat} {s : State}

theorem locate_spec (id : BlockId) (o : Nat) (hT : T → Located pf.flags s.diskSpace id) :
    Spec T (locate pf id o) (fun pos t => t = s ∧ pos = filePos pf.flags id o) s := by
  unfold locate
  simp only [spec_bind, spec_read]
  refine spec_deref (fun ht => ?_) fun dir hdir => ?_
  · obtain ⟨_, _, dir, hdir, _⟩ := hT ht
    simp [hdir]
  refine spec_require (fun ht => (hT ht).2.1) fun _ => ?_
  refine spec_deref (fun ht => ?_) fun quota _ => ?_
  · obtain ⟨_, _, dir', hdir', quota, hquota⟩ := hT ht
    rw [hdir] at hdir'
    cases hdir'
    simp [hquota]
  exact ⟨rfl, rfl⟩

/-! ## Eviction policy -/

/-- A touch that is released at once. -/
theorem touch_release_spec (id : CacheId) (force : Bool)
    (h : s.diskTracker.Inv pf.cacheIdHash s.diskHandles) :
    Spec T (do let handle ← evictTouch pf id force; evictRelease handle) (fun _ t =>
      t = { s with clock := s.clock + 1, diskTracker := t.diskTracker } ∧
        t.diskTracker.Inv pf.cacheIdHash s.diskHandles ∧
        ∀ id', t.diskTracker.Tracked pf.cacheIdHash id' ↔ s.diskTracker.Tracked pf.cacheIdHash id')
      s := by
  unfold evictTouch evictRelease tick
  simp only [spec_bind, spec_modifyGet]
  refine spec_ite (fun _ => ?_) fun _ => ?_
  · rw [spec_modifyGet, spec_modify]
    dsimp only
    cases hr : (s.diskTracker.touch pf.cacheIdHash id).1 with
    | none =>
        refine ⟨rfl, (h.touch_none hr).2, fun id' => h.touch_tracked id id'⟩
    | some handle =>
        obtain ⟨_, hinv⟩ := h.touch_some hr
        obtain ⟨hinv', htracked, _⟩ := LruEvictionPolicy.Inv.release hinv
        refine ⟨?_, hinv', fun id' => (htracked id').trans (h.touch_tracked id id')⟩
        simp [LruEvictionPolicy.releaseHandle]
  · rw [spec_pure, spec_modify]
    exact ⟨rfl, h, fun _ => Iff.rfl⟩

/-! ## Checksums -/

variable {bytes : IOBuf} {seg : BlockSegment}

theorem checksumLoop_spec (size : Nat) (pieces : List ChecksumPiece) {Q : Unit → State → Prop}
    (hT : T → (size = 0 ∨ u32 pf.flags.sliceSize ≠ 0) ∧ ∀ p ∈ pieces, p.InBounds pf.flags)
    (h : Q () s) : Spec T (checksumLoop pf.flags size pieces) Q s := by
  unfold checksumLoop
  simp only [spec_bind]
  exact spec_require (fun ht => (hT ht).1) fun _ =>
    spec_require (fun ht => (hT ht).2) fun _ => h

/-- On a part of a block the checksum loops stay in bounds. -/
theorem SegmentPart.pieces_inBounds (hgeo : Geometry pf.flags)
    (hlen : bytes.length ≤ pf.flags.blockSize) (hseg : SegmentPart pf.flags bytes seg) :
    (seg.size = 0 ∨ u32 pf.flags.sliceSize ≠ 0) ∧
      ∀ p ∈ checksumPieces pf.flags seg.offset seg.size, p.InBounds pf.flags := by
  have hle := hgeo.block_le
  have hslice := hgeo.slice_le
  have hss := pf.flags.sliceSize_pos
  have hfits := hseg.fits
  refine ⟨Or.inr ?_, ?_⟩
  · rw [u32_of_lt (by omega)]
    omega
  · obtain ⟨m, hm⟩ := hseg.aligned
    rw [Nat.mul_comm] at hm
    rw [hm]
    exact checksumPieces_inBounds hgeo (by omega)

/-- What the checksums of a good segment are. -/
theorem updatedChecksums (hgeo : Geometry pf.flags) (hlen : bytes.length ≤ pf.flags.blockSize)
    (hseg : SegmentOk pf.flags bytes seg) (sums : Nat → UInt32) (k : Nat) :
    ((checksumPieces pf.flags seg.offset seg.size).foldl (fun sums p =>
        Function.update sums p.index.toNat (pieceChecksum pf seg.buf p)) sums) k =
      if seg.Covers pf.flags k then
        pf.crc32c ((bytes.drop (k * pf.flags.sliceSize)).take pf.flags.sliceSize)
      else sums k := by
  have hfits := hseg.fits
  have hss := pf.flags.sliceSize_pos
  obtain ⟨m, hm⟩ := hseg.aligned
  rw [Nat.mul_comm] at hm
  rw [hm, checksumPieces_eq hgeo (by omega), List.foldl_map]
  have hfold := foldl_update_range (fun n => pieceChecksum pf seg.buf
    ⟨(m + n : Nat), n * pf.flags.sliceSize,
      min pf.flags.sliceSize (seg.size - n * pf.flags.sliceSize)⟩) sums m k
    ((seg.size + (pf.flags.sliceSize - 1)) / pf.flags.sliceSize)
  simp only [Int.toNat_natCast]
  rw [hfold]
  have hcov : seg.Covers pf.flags k ↔
      m ≤ k ∧ k < m + (seg.size + (pf.flags.sliceSize - 1)) / pf.flags.sliceSize := by
    unfold BlockSegment.Covers
    rw [hm]
    have hpiece : k - m < (seg.size + (pf.flags.sliceSize - 1)) / pf.flags.sliceSize ↔
        (k - m) * pf.flags.sliceSize < seg.size := lt_pieces_iff
    constructor
    · rintro ⟨hlow, hhigh⟩
      have hmk := Nat.le_of_mul_le_mul_right hlow hss
      rw [Nat.sub_mul] at hpiece
      have := hpiece.mpr (by omega)
      exact ⟨hmk, by omega⟩
    · rintro ⟨hmk, hlt⟩
      have hlow := Nat.mul_le_mul_right pf.flags.sliceSize hmk
      rw [Nat.sub_mul] at hpiece
      have := hpiece.mp (by omega)
      exact ⟨hlow, by omega⟩
  by_cases hk : seg.Covers pf.flags k
  · rw [if_pos hk, if_pos (hcov.mp hk)]
    obtain ⟨hmk, hlt⟩ := hcov.mp hk
    have hn : (k - m) * pf.flags.sliceSize < seg.size := lt_pieces_iff.mp (by omega)
    unfold pieceChecksum
    rw [hseg.slice hm hn]
    congr 4
    omega
  · rw [if_neg hk, if_neg (fun h => hk (hcov.mpr h))]

/-! ## Writing -/

/-- The state after a write: only files, the checksums of this block and the clock
have changed. -/
structure Wrote (s t : State) (id : BlockId) : Prop where
  eq : t = { s with clock := t.clock, files := t.files, checksums := t.checksums }
  clock : s.clock ≤ t.clock
  checksums : ∀ id', id' ≠ id → t.checksums id' = s.checksums id'

/-- What a write does to the slices on disk. -/
structure WroteSlices (pf : Platform) (bytes : IOBuf) (seg : BlockSegment) (s t : State)
    (id : BlockId) (done : Bool) : Prop where
  others : ∀ id', id' ≠ id → SameBlock pf s t id'
  keep : ∀ k, SliceOnDisk pf s bytes id k → SliceOnDisk pf t bytes id k
  written : done = true → ∀ k, seg.Covers pf.flags k → SliceOnDisk pf t bytes id k

/-- The padded data of a good segment stays inside the block. -/
theorem padded_room (hd : DataHyp pf) (hseg : SegmentOk pf.flags bytes seg) {pad : IOBuf}
    (hpad : pad = [] ∨ pf.flags.enableOsPageCache = false ∧
      (seg.buf ++ pad).length = roundUp seg.buf.length pf.flags.ioAlignUnitSize) :
    seg.offset + (seg.buf ++ pad).length ≤ pf.flags.blockSize := by
  have hroom := hseg.room
  rcases hpad with rfl | ⟨hcache, hlength⟩
  · rw [List.append_nil]
    exact hroom
  · have halign : pf.flags.ioAlignUnitSize ∣ pf.flags.sliceSize := by
      rcases hd.align with h | h
      · rw [hcache] at h
        cases h
      · exact h
    have hdvd : pf.flags.ioAlignUnitSize ∣ pf.flags.blockSize - seg.offset :=
      (Nat.dvd_sub (halign.trans hd.slice_dvd) (halign.trans hseg.aligned))
    have := BlockFile.roundUp_le pf.flags.ioAlignUnitSize_pos hdvd
      (show seg.buf.length ≤ pf.flags.blockSize - seg.offset by omega)
    omega

/-- Without padding that could reach the next slice, the data behind the segment's
end lies behind the end of the block's bytes. -/
theorem padded_end (hd : DataHyp pf) (hseg : SegmentOk pf.flags bytes seg) {pad : IOBuf}
    (hpad : pad = [] ∨ pf.flags.enableOsPageCache = false ∧
      (seg.buf ++ pad).length = roundUp seg.buf.length pf.flags.ioAlignUnitSize) {p : Nat}
    (hlow : seg.offset + seg.size ≤ p) (hhigh : p < seg.offset + (seg.buf ++ pad).length) :
    bytes.length ≤ p := by
  rcases hseg.ends with hend | hend
  · rcases hseg.tight with htight | htight
    · -- the buffer is a whole number of slices, so that nothing is padded
      rcases hpad with rfl | ⟨hcache, hlength⟩
      · rw [List.append_nil, htight] at hhigh
        omega
      · have halign : pf.flags.ioAlignUnitSize ∣ pf.flags.sliceSize := by
          rcases hd.align with h | h
          · rw [hcache] at h
            cases h
          · exact h
        have hdvd : pf.flags.sliceSize ∣ seg.size := (Nat.dvd_add_right hseg.aligned).mp hend
        rw [htight, BlockFile.roundUp_of_dvd pf.flags.ioAlignUnitSize_pos
          (halign.trans hdvd)] at hlength
        omega
    · omega
  · omega

/-- The file part of a write: the bytes of the segment are on disk and no other
byte of the block's own bytes has changed. -/
theorem diskByte_written (hd : DataHyp pf) (hseg : SegmentOk pf.flags bytes seg) {pad : IOBuf}
    (hpad : pad = [] ∨ pf.flags.enableOsPageCache = false ∧
      (seg.buf ++ pad).length = roundUp seg.buf.length pf.flags.ioAlignUnitSize)
    (files : Nat → Nat → Nat → UInt8) (id : BlockId) {p : Nat} (hp : p < bytes.length) :
    some (diskByte pf.flags (writeBytes files (filePos pf.flags id seg.offset) (seg.buf ++ pad))
        id p) =
      if seg.offset ≤ p ∧ p < seg.offset + seg.size then bytes[p]?
      else some (diskByte pf.flags files id p) := by
  have hlong := hseg.long
  rw [diskByte_writeBytes]
  by_cases hlow : seg.offset ≤ p
  · rw [if_pos hlow]
    by_cases hhigh : p < seg.offset + seg.size
    · have hget : (seg.buf ++ pad)[p - seg.offset]? = bytes[p]? := by
        rw [List.getElem?_append_left (by omega), hseg.content _ (by omega)]
        congr 1
        omega
      rw [if_pos ⟨hlow, hhigh⟩, List.getD_eq_getElem?_getD, hget, List.getElem?_eq_getElem hp]
      rfl
    · rw [if_neg (by omega), List.getD_eq_default]
      by_contra hlt
      have := padded_end hd hseg hpad (p := p) (by omega) (by omega)
      omega
  · rw [if_neg hlow, if_neg (by omega)]

theorem writeBlock_spec (hdata : D → DataHyp pf) (htotal : T → D) (id : BlockId)
    (hseg : D → SegmentOk pf.flags bytes seg ∧ bytes.length ≤ pf.flags.blockSize)
    (hT : T → Located pf.flags s.diskSpace id) :
    Spec T (writeBlock pf id seg) (fun st t => Wrote s t id ∧
      (D → WroteSlices pf bytes seg s t id st.ok)) s := by
  have hfail : ∀ code text, code ≠ 0 → Wrote s s id ∧
      (D → WroteSlices pf bytes seg s s id (Status.mk code text).ok) := by
    intro code text hcode
    refine ⟨⟨rfl, Nat.le_refl _, fun _ _ => rfl⟩, fun _ =>
      ⟨fun _ _ => ⟨rfl, fun _ _ => rfl⟩, fun _ hk => hk, fun hdone => ?_⟩⟩
    unfold Status.ok at hdone
    exact absurd (by simpa using hdone) hcode
  unfold writeBlock
  simp only [spec_bind, spec_read]
  refine spec_ite (fun _ => hfail _ _ (by decide)) fun _ => ?_
  refine spec_ite (fun _ => hfail _ _ (by decide)) fun _ => ?_
  -- the checksums are updated before the transfer
  have hupdate : Spec T (Prog.when pf.flags.enableDiskChecksum (updateBlockChecksum pf id seg))
      (fun _ u => u = { s with checksums := u.checksums } ∧
        (∀ id', id' ≠ id → u.checksums id' = s.checksums id') ∧
        (D → pf.flags.enableDiskChecksum = true → ∀ k, u.checksums id k =
          if seg.Covers pf.flags k then
            pf.crc32c ((bytes.drop (k * pf.flags.sliceSize)).take pf.flags.sliceSize)
          else s.checksums id k)) s := by
    refine spec_when (fun _ => ?_) fun hoff => ?_
    · unfold updateBlockChecksum
      simp only [spec_bind]
      refine checksumLoop_spec _ _ (fun ht => ?_) ?_
      · have hd := htotal ht
        exact SegmentPart.pieces_inBounds (hdata hd).toGeometry (hseg hd).2 (hseg hd).1.part
      · rw [spec_modify]
        refine ⟨rfl, fun id' hne => Function.update_of_ne hne .., fun hd _ k => ?_⟩
        dsimp only
        rw [Function.update_self]
        exact updatedChecksums (hdata hd).toGeometry (hseg hd).2 (hseg hd).1 _ k
    · exact ⟨rfl, fun _ _ => rfl, fun _ hon => by rw [hoff] at hon; cases hon⟩
  simp only [spec_bind]
  refine hupdate.mono ?_
  rintro ⟨⟩ u ⟨hu, hothers, hsums⟩
  refine (locate_spec id seg.offset (fun ht => ?_)).mono ?_
  · have := hT ht
    rwa [hu]
  rintro pos v ⟨rfl, rfl⟩
  refine (BlockFile.write_spec hdata (filePos pf.flags id seg.offset) seg.buf v).mono ?_
  rintro st t ⟨ht, hclock, hfiles⟩
  have hchecksums : t.checksums = v.checksums := by rw [ht]
  have hvfiles : v.files = s.files := by rw [hu]
  have hvclock : v.clock = s.clock := by rw [hu]
  refine ⟨⟨?_, hvclock ▸ hclock, fun id' hne => ?_⟩, fun hd => ?_⟩
  · rw [ht, hu]
  · rw [hchecksums]
    exact hothers id' hne
  obtain ⟨pad, hwritten, hpad⟩ := hfiles hd
  obtain ⟨hok, hlen⟩ := hseg hd
  have hyp := hdata hd
  have hroom := padded_room hyp hok hpad
  rw [hvfiles] at hwritten
  refine ⟨fun id' hne => ⟨?_, fun p hp => ?_⟩, fun k hk => ⟨fun p hlow hhigh hp => ?_, fun hon => ?_⟩,
    fun hdone k hk => ⟨fun p hlow hhigh hp => ?_, fun hon => ?_⟩⟩
  · rw [hchecksums]
    exact hothers id' hne
  · rw [hwritten]
    split
    next => exact diskByte_writeBytes_ne s.files hne hroom hp
    next => rfl
  · rw [hwritten]
    split
    next =>
      rw [diskByte_written hyp hok hpad s.files id hp]
      split
      next => rfl
      next => exact hk.content p hlow hhigh hp
    next => exact hk.content p hlow hhigh hp
  · rw [hchecksums, hsums hd hon]
    split
    next => rfl
    next => exact hk.checksum hon
  · rw [hwritten, if_pos hdone, diskByte_written hyp hok hpad s.files id hp, if_pos]
    -- a covered slice lies inside the segment as far as the block goes
    obtain ⟨hleft, hright⟩ := hk
    refine ⟨by omega, ?_⟩
    rcases hok.ends with ⟨e, he⟩ | hend
    · rw [he] at hright ⊢
      rw [Nat.mul_comm] at hright
      have hlt := Nat.lt_of_mul_lt_mul_left hright
      have := Nat.mul_le_mul_left pf.flags.sliceSize (Nat.succ_le_of_lt hlt)
      rw [Nat.mul_comm (k + 1)] at hhigh
      exact Nat.lt_of_lt_of_le hhigh this
    · omega
  · rw [hchecksums, hsums hd hon, if_pos hk]

/-! ## Reading -/

/-- What is read from a slice boundary on is a part of the block. -/
theorem readBytes_part {flags : Flags} {files : Nat → Nat → Nat → UInt8} {id : BlockId}
    (hdvd : flags.sliceSize ∣ flags.blockSize)
    (halign : flags.enableOsPageCache = true ∨ flags.ioAlignUnitSize ∣ flags.sliceSize)
    (hcontent : ∀ p < bytes.length, some (diskByte flags files id p) = bytes[p]?)
    (hlen : bytes.length ≤ flags.blockSize) {offset size : Nat}
    (hoffset : flags.sliceSize ∣ offset) (hsize : 0 < size) (hfit : offset + size ≤ bytes.length) :
    SegmentPart flags bytes ⟨offset, size, readBytes files (filePos flags id offset)
      (BlockFile.alignedSize flags size)⟩ := by
  have hge : size ≤ BlockFile.alignedSize flags size := by
    unfold BlockFile.alignedSize
    split
    · exact Nat.le_refl _
    · exact BlockFile.roundUp_ge _ _ flags.ioAlignUnitSize_pos
  -- the buffer ends before every slice boundary behind the segment
  have htight : ∀ b, flags.sliceSize ∣ b → offset + size ≤ b →
      offset + BlockFile.alignedSize flags size ≤ b := by
    intro b hb hle
    unfold BlockFile.alignedSize
    split
    next => exact hle
    next hcache =>
      have halign : flags.ioAlignUnitSize ∣ flags.sliceSize := halign.resolve_left hcache
      have := BlockFile.roundUp_le flags.ioAlignUnitSize_pos
        (Nat.dvd_sub (halign.trans hb) (halign.trans hoffset)) (show size ≤ b - offset by omega)
      omega
  refine ⟨hoffset, hsize, hfit, ?_, Or.inr fun k hk => ?_, ?_, fun p hp hin => ?_⟩
  · rwa [BlockFile.length_readBytes]
  · rw [BlockFile.length_readBytes]
    exact htight _ (Nat.dvd_mul_left _ _) hk
  · rw [BlockFile.length_readBytes]
    exact htight _ hdvd (Nat.le_trans hfit hlen)
  · rw [BlockFile.length_readBytes] at hp
    unfold readBytes
    rw [List.getElem?_map, List.getElem?_range hp, Option.map_some]
    rw [← hcontent (offset + p) hin]
    unfold diskByte filePos CacheDir.getBlockFileOffset
    dsimp only
    rw [Nat.add_assoc]

/-- The bytes of a block, read at slice boundaries, are a good segment. -/
theorem readBytes_segment {flags : Flags} {files : Nat → Nat → Nat → UInt8} {id : BlockId}
    (hdvd : flags.sliceSize ∣ flags.blockSize)
    (halign : flags.enableOsPageCache = true ∨ flags.ioAlignUnitSize ∣ flags.sliceSize)
    (hcontent : ∀ p < bytes.length, some (diskByte flags files id p) = bytes[p]?)
    (hlen : bytes.length ≤ flags.blockSize) {offset size : Nat}
    (hoffset : flags.sliceSize ∣ offset) (hsize : 0 < size) (hfit : offset + size ≤ bytes.length)
    (hend : flags.sliceSize ∣ offset + size ∨ offset + size = bytes.length) :
    SegmentOk flags bytes ⟨offset, size, readBytes files (filePos flags id offset)
      (BlockFile.alignedSize flags size)⟩ :=
  (readBytes_part hdvd halign hcontent hlen hoffset hsize hfit).ok hend

/-- A read that fills its buffer from the disk yields a part of the block. -/
theorem readBytes_segmentPart {id : BlockId} (hd : DataHyp pf) (hon : BlockOnDisk pf s bytes id)
    (hlen : bytes.length ≤ pf.flags.blockSize) {offset size : Nat}
    (hoffset : pf.flags.sliceSize ∣ offset) (hsize : 0 < size)
    (hfit : offset + size ≤ bytes.length) :
    SegmentPart pf.flags bytes ⟨offset, size, readBytes s.files (filePos pf.flags id offset)
      (BlockFile.alignedSize pf.flags size)⟩ := by
  have hss := pf.flags.sliceSize_pos
  refine readBytes_part hd.slice_dvd hd.align (fun p hp => ?_) hlen hoffset hsize hfit
  have hslice := hon (p / pf.flags.sliceSize) (Nat.lt_of_le_of_lt (Nat.div_mul_le_self _ _) hp)
  refine hslice.content p (Nat.div_mul_le_self _ _) ?_ hp
  have := Nat.lt_div_mul_add (a := p) hss
  rw [Nat.add_mul]
  omega

/-- A read that fills its buffer from the disk at slice boundaries yields a good segment. -/
theorem readBytes_segmentOk {id : BlockId} (hd : DataHyp pf) (hon : BlockOnDisk pf s bytes id)
    (hlen : bytes.length ≤ pf.flags.blockSize) {offset size : Nat}
    (hoffset : pf.flags.sliceSize ∣ offset) (hsize : 0 < size)
    (hfit : offset + size ≤ bytes.length)
    (hend : pf.flags.sliceSize ∣ offset + size ∨ offset + size = bytes.length) :
    SegmentOk pf.flags bytes ⟨offset, size, readBytes s.files (filePos pf.flags id offset)
      (BlockFile.alignedSize pf.flags size)⟩ :=
  (readBytes_segmentPart hd hon hlen hoffset hsize hfit).ok hend

/-- The state after a read: only the clock has advanced, and the eviction policy has
seen a touch. -/
structure DidRead (pf : Platform) (s t : State) : Prop where
  eq : t = { s with clock := t.clock, diskTracker := t.diskTracker }
  clock : s.clock ≤ t.clock
  inv : t.diskTracker.Inv pf.cacheIdHash s.diskHandles
  tracked : ∀ id, t.diskTracker.Tracked pf.cacheIdHash id ↔ s.diskTracker.Tracked pf.cacheIdHash id

/-- The checksums of a good segment of a block on disk are the stored ones. -/
theorem checkBlockChecksum_spec {R : Prop} (bytes : IOBuf) (id : BlockId)
    (hon : pf.flags.enableDiskChecksum = true)
    (hT : T → (seg.size = 0 ∨ u32 pf.flags.sliceSize ≠ 0) ∧
      ∀ p ∈ checksumPieces pf.flags seg.offset seg.size, p.InBounds pf.flags)
    (hR : R → Geometry pf.flags ∧ SegmentOk pf.flags bytes seg ∧
      bytes.length ≤ pf.flags.blockSize ∧ BlockOnDisk pf s bytes id) :
    Spec T (checkBlockChecksum pf id seg) (fun ok t => t = s ∧ (R → ok = true)) s := by
  unfold checkBlockChecksum
  simp only [spec_bind]
  refine checksumLoop_spec _ _ hT ?_
  rw [spec_read, spec_pure]
  refine ⟨rfl, fun hr => ?_⟩
  obtain ⟨hgeo, hok, hlen, hdisk⟩ := hR hr
  have hfits := hok.fits
  obtain ⟨m, hm⟩ := hok.aligned
  rw [Nat.mul_comm] at hm
  rw [hm, checksumPieces_eq hgeo (by omega), List.all_map, List.all_eq_true]
  intro n hn
  rw [List.mem_range, lt_pieces_iff] at hn
  have hsum := hdisk (m + n) (by rw [Nat.add_mul]; omega)
  simp only [Function.comp_apply, Int.toNat_natCast, beq_iff_eq]
  rw [hsum.checksum hon]
  unfold pieceChecksum
  rw [hok.slice hm hn]

/-- A read of a part of a block yields that part, or nothing; under `R` it succeeds. A read that
does not begin on a slice boundary is refused. -/
theorem readBlock_spec {R : Prop} (bytes : IOBuf) (hdata : D → DataHyp pf) (hR : R → T)
    (hreads : R → ReadHyp pf n₀) (cacheId : CacheId)
    (id : BlockId) {offset size : Nat} (hclock : n₀ ≤ s.clock)
    (htracker : s.diskTracker.Inv pf.cacheIdHash s.diskHandles)
    (hD : D → BlockOnDisk pf s bytes id ∧ bytes.length ≤ pf.flags.blockSize ∧ 0 < size ∧
      offset + size ≤ bytes.length)
    (hT : T → D ∧ (pf.flags.sliceSize ∣ offset → Located pf.flags s.diskSpace id))
    (hends : R → pf.flags.sliceSize ∣ offset ∧
      (pf.flags.sliceSize ∣ offset + size ∨ offset + size = bytes.length)) :
    Spec T (readBlock pf cacheId id offset size) (fun r t => DidRead pf s t ∧
      (r.1.ok = true → pf.flags.sliceSize ∣ offset) ∧
      (D → r.1.ok = true → SegmentPart pf.flags bytes ⟨offset, size, r.2⟩ ∨
        (r.2 = [] ∧ 2147483648 ≤ BlockFile.alignedSize pf.flags size)) ∧
      (R → r.1.ok = true)) s := by
  have hrefl : DidRead pf s s := ⟨rfl, Nat.le_refl _, htracker, fun _ => Iff.rfl⟩
  have hnot : ∀ code text, code ≠ 0 → (Status.mk code text).ok = true → False := by
    intro code text hcode hok
    unfold Status.ok at hok
    exact absurd (by simpa using hok) hcode
  unfold readBlock
  simp only [spec_bind, spec_read]
  refine spec_ite (fun hquota => ?_) fun _ => ?_
  · rw [spec_pure]
    exact ⟨hrefl, fun hok => (hnot _ _ (by decide) hok).elim,
      fun _ hok => (hnot _ _ (by decide) hok).elim,
      fun hr => absurd hquota ((hT (hR hr)).2 (hends hr).1).1⟩
  simp only [spec_bind]
  refine ((spec_bind _).mp (touch_release_spec cacheId false htracker)).mono fun _ u hu =>
    hu.mono ?_
  rintro ⟨⟩ v ⟨hv, hinv, htracked⟩
  have hread : DidRead pf s v := ⟨by rw [hv], by rw [hv]; exact Nat.le_succ _, hinv, htracked⟩
  refine spec_ite (fun halign => ?_) fun halign => ?_
  · rw [spec_pure]
    refine ⟨hread, fun hok => (hnot _ _ (by decide) hok).elim,
      fun _ hok => (hnot _ _ (by decide) hok).elim, fun hr => ?_⟩
    exact absurd (Nat.mod_eq_zero_of_dvd (hends hr).1) halign
  rw [not_not] at halign
  have hoffset := Nat.dvd_of_mod_eq_zero halign
  simp only [spec_bind]
  refine (locate_spec id offset (fun ht => by rw [hv]; exact (hT ht).2 hoffset)).mono ?_
  rintro pos x ⟨hx, rfl⟩
  rw [hx]
  refine (BlockFile.read_spec hdata (fun hr => ⟨(hT (hR hr)).1, hreads hr⟩)
    (filePos pf.flags id offset) size (Nat.le_trans hclock hread.clock)).mono ?_
  rintro r w ⟨hw, hbytes, hok⟩
  have hfiles : v.files = s.files := by rw [hv]
  have hread' : DidRead pf s w := by
    refine ⟨by rw [hw, hv], ?_, ?_, ?_⟩
    · rw [hw]
      exact Nat.le_succ_of_le hread.clock
    · rw [hw]
      exact hinv
    · rw [hw]
      exact htracked
  -- the part of the block as it is on disk
  have hpart : D → SegmentPart pf.flags bytes ⟨offset, size, readBytes s.files
      (filePos pf.flags id offset) (BlockFile.alignedSize pf.flags size)⟩ := by
    intro hd
    obtain ⟨hon, hlen, hsize, hfit⟩ := hD hd
    exact readBytes_segmentPart (hdata hd) hon hlen hoffset hsize hfit
  -- what was read is that part, or nothing
  have hsegment : D → r.1.ok = true → SegmentPart pf.flags bytes ⟨offset, size, r.2⟩ ∨
      (r.2 = [] ∧ 2147483648 ≤ BlockFile.alignedSize pf.flags size) := by
    intro hd hres
    refine (hbytes hd hres).imp_left fun heq => ?_
    rw [heq, hfiles]
    exact hpart hd
  have hsmall : R → BlockFile.alignedSize pf.flags size < 2147483648 := by
    intro hr
    have hroom := (hpart (hT (hR hr)).1).room
    rw [BlockFile.length_readBytes] at hroom
    have := (hreads hr).block_lt
    dsimp only at hroom
    omega
  refine spec_ite (fun hres => ?_) fun hres => ?_
  · rw [spec_pure]
    exact ⟨hread', fun _ => hoffset, hsegment, fun hr => hok hr (hsmall hr)⟩
  have hres' : r.1.ok = true := by simpa using hres
  refine spec_ite (fun hon => ?_) fun _ => ?_
  · simp only [spec_bind]
    have hwfiles : w.files = s.files := by rw [hw, hv]
    have hwsums : w.checksums = s.checksums := by rw [hw, hv]
    refine (checkBlockChecksum_spec (R := R) bytes id hon (fun ht => ?_) fun hr => ?_).mono ?_
    · have hd := (hT ht).1
      have hbounds := SegmentPart.pieces_inBounds (hdata hd).toGeometry (hD hd).2.1 (hpart hd)
      exact hbounds
    · have hd := (hT (hR hr)).1
      obtain ⟨hdisk, hlen, _⟩ := hD hd
      have hwhole := (hsegment hd hres').resolve_right fun hshort => by
        have := hsmall hr
        omega
      exact ⟨(hdata hd).toGeometry, hwhole.ok (hends hr).2, hlen,
        hdisk.same hlen ⟨by rw [hwsums], fun p _ => by rw [hwfiles]⟩⟩
    rintro ok x ⟨rfl, hpass⟩
    refine spec_ite (fun _ => ?_) fun hfail => ?_
    · rw [spec_pure]
      exact ⟨hread', fun _ => hoffset, fun hd _ => hsegment hd hres', fun _ => rfl⟩
    · rw [spec_pure]
      exact ⟨hread', fun _ => hoffset, fun _ hok => (hnot _ _ (by decide) hok).elim,
        fun hr => absurd (hpass hr) hfail⟩
  · rw [spec_pure]
    exact ⟨hread', fun _ => hoffset, fun hd _ => hsegment hd hres', fun _ => rfl⟩

end DiskCache

end StarCache
