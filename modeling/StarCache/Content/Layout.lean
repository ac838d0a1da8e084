import StarCache.Content.Disk
import StarCache.Space.BlockFiles

/-!
# Places of blocks and of slices

Where the bytes of a block go, and which elements of the slice and checksum arrays belong to
them. Every size is rounded down where it is counted, so that the last bytes of a block or of a
file have a place only if the sizes divide each other.
-/

namespace StarCache

open Prog MachineInt

/-! ## Slice indexes -/

section Slices

variable {flags : Flags}

/-- An index of the slice and checksum arrays. -/
def InSlices (flags : Flags) (index : Int) : Prop := 0 ≤ index ∧ index < blockSliceCount flags

/-- All bytes of a block have a slice. -/
theorem inSlices_of_dvd (hdvd : flags.sliceSize ∣ flags.blockSize)
    (hcount : flags.blockSize / flags.sliceSize < 2147483648)
    (hlt : flags.blockSize < 18446744073709551616) {p : Nat} (hp : p < flags.blockSize) :
    InSlices flags (off2slice flags p) := by
  obtain ⟨n, hn⟩ := hdvd
  have hslice := flags.sliceSize_pos
  rw [hn, Nat.mul_div_cancel_left n hslice] at hcount
  have hindex : p / flags.sliceSize < n := by
    rw [Nat.div_lt_iff_lt_mul hslice, Nat.mul_comm, ← hn]
    exact hp
  have hu : u64 (p : Int) = p := u64_of_lt (by omega)
  have hslices : blockSliceCount flags = n := by
    unfold blockSliceCount
    rw [hn, Nat.mul_div_cancel_left n hslice]
    exact u32_of_lt (by omega)
  unfold InSlices off2slice
  rw [hu, i32_of_lt (by omega), hslices]
  exact ⟨Int.natCast_nonneg _, Int.ofNat_lt.mpr hindex⟩

/-- The last byte of a block has a slice only if the slices fill the block. -/
theorem dvd_of_inSlices (hcount : flags.blockSize / flags.sliceSize < 2147483648)
    (hlt : flags.blockSize < 18446744073709551616)
    (h : InSlices flags (off2slice flags (flags.blockSize - 1 : Nat))) :
    flags.sliceSize ∣ flags.blockSize := by
  have hslice := flags.sliceSize_pos
  have hblock := flags.blockSize_pos
  have hle : (flags.blockSize - 1) / flags.sliceSize ≤ flags.blockSize / flags.sliceSize :=
    Nat.div_le_div_right (Nat.sub_le _ _)
  have hu : u64 ((flags.blockSize - 1 : Nat) : Int) = flags.blockSize - 1 := u64_of_lt (by omega)
  have hslices : blockSliceCount flags = flags.blockSize / flags.sliceSize :=
    u32_of_lt (by omega)
  unfold InSlices off2slice at h
  rw [hu, i32_of_lt (by omega), hslices] at h
  have hindex := Int.ofNat_lt.mp h.2
  rw [Nat.div_lt_iff_lt_mul hslice] at hindex
  have hmul := Nat.div_mul_le_self flags.blockSize flags.sliceSize
  exact Nat.dvd_of_mod_eq_zero (by
    have := Nat.div_add_mod' flags.blockSize flags.sliceSize
    omega)

theorem foldlM_defined {α β : Type} {f : β → α → Option β} : ∀ (xs : List α) (b : β),
    (∀ x ∈ xs, ∀ b, ∃ b', f b x = some b') → xs.foldlM f b ≠ none
  | [], _, _ => Option.some_ne_none _
  | x :: rest, b, h => by
      obtain ⟨b', hb⟩ := h x List.mem_cons_self b
      rw [List.foldlM_cons, hb]
      exact foldlM_defined rest b' fun y hy => h y (List.mem_cons_of_mem _ hy)

theorem readSlice_defined {segments : SegmentRef → BlockSegment}
    {slices : List (Option SegmentRef)} {index : Nat} (h : index < slices.length)
    (c : MemCache.Cursor) : ∃ c', MemCache.readSlice flags segments slices c index = some c' := by
  by_cases hsame : slices[index] = c.curSegment
  · exact ⟨c, by simp only [MemCache.readSlice, List.getElem?_eq_getElem h, if_pos hsame]⟩
  · exact ⟨_, by simp only [MemCache.readSlice, List.getElem?_eq_getElem h, if_neg hsame]; rfl⟩

/-- The loop of `read_block` stays inside the array when both ends do. -/
theorem readSegments_defined {segments : SegmentRef → BlockSegment}
    {slices : List (Option SegmentRef)} {offset : Int} {size : Nat}
    (hlen : slices.length = blockSliceCount flags) (hstart : InSlices flags (off2slice flags offset))
    (hend : InSlices flags (off2slice flags (offset + size - 1))) :
    MemCache.readSegments flags segments slices offset size ≠ none := by
  obtain ⟨first, hfirst⟩ := Int.eq_ofNat_of_zero_le hstart.1
  obtain ⟨last, hlast⟩ := Int.eq_ofNat_of_zero_le hend.1
  have hlt : first < slices.length := by
    have := hstart.2
    omega
  have hlt' : last < slices.length := by
    have := hend.2
    omega
  have hloop := foldlM_defined (f := MemCache.readSlice flags segments slices)
    (List.range' (first + 1) ((last : Int) - first).toNat) ⟨slices[first], offset, size, []⟩
    fun index hindex c => readSlice_defined (by
      rw [List.mem_range'_1] at hindex
      omega) c
  obtain ⟨c, hc⟩ := Option.ne_none_iff_exists'.mp hloop
  simp only [MemCache.readSegments, hfirst, hlast]
  rw [if_neg (by omega), Int.toNat_natCast, List.getElem?_eq_getElem hlt]
  simp only [hc, ne_eq, reduceCtorEq, not_false_eq_true]

theorem readSegments_start {segments : SegmentRef → BlockSegment}
    {slices : List (Option SegmentRef)} {offset : Int} {size : Nat}
    (hlen : slices.length = blockSliceCount flags)
    (h : MemCache.readSegments flags segments slices offset size ≠ none) :
    InSlices flags (off2slice flags offset) := by
  by_contra hout
  apply h
  unfold MemCache.readSegments
  dsimp only
  by_cases hneg : off2slice flags offset < 0
  · rw [if_pos hneg]
  · have hge : slices.length ≤ (off2slice flags offset).toNat := by
      unfold InSlices at hout
      omega
    rw [if_neg hneg, List.getElem?_eq_none hge]

theorem setBlockSegment_defined {block : MemBlockItem} {start stop : Int} {g : SegmentRef}
    (hlen : block.slices.length = blockSliceCount flags) (hstart : InSlices flags start)
    (hstop : InSlices flags stop) : block.setBlockSegment start stop g ≠ none := by
  unfold MemBlockItem.setBlockSegment
  split
  next => exact Option.some_ne_none _
  next =>
    rw [if_pos ⟨hstart.1, hlen ▸ hstop.2⟩]
    exact Option.some_ne_none _

/-- The checksum loops, for a range that a disk block may be asked for. -/
theorem checksumPieces_inSlices (hall : ∀ p < flags.blockSize, InSlices flags (off2slice flags p))
    {offset size : Nat} (hfit : offset + size ≤ flags.blockSize) :
    ∀ p ∈ DiskCache.checksumPieces flags offset size, InSlices flags p.index := by
  intro p hp
  unfold DiskCache.checksumPieces at hp
  obtain ⟨n, hn, rfl⟩ := List.mem_map.mp hp
  rw [List.mem_range] at hn
  rcases Nat.eq_zero_or_pos (u32 flags.sliceSize) with hzero | hpos
  · rw [hzero, Nat.div_zero] at hn
    exact absurd hn (Nat.not_lt_zero _)
  · apply hall
    have hn := (Nat.le_div_iff_mul_le hpos).mp hn
    rw [Nat.succ_mul] at hn
    omega

/-- Every file and every element of the slice and checksum arrays that the code asks for exists. -/
structure IndexesInBounds (flags : Flags) (quotaBytes : Nat) : Prop where
  /-- A block that has been handed out lies in a file of its directory. -/
  file : ∀ {index dir dir' i}, CacheDir.Reachable flags index quotaBytes dir →
    dir.allocBlock = some (some i, dir') →
      ∃ quota, dir.blockFiles[CacheDir.fileIndex flags i]? = some quota ∧
        ∀ offset size, offset + size ≤ flags.blockSize →
          CacheDir.getBlockFileOffset flags i offset + size ≤ quota
  memWrite : ∀ {segments : SegmentRef → BlockSegment} {block : MemBlockItem} {g : SegmentRef},
    block.slices.length = blockSliceCount flags → 0 < (segments g).size →
      (segments g).offset + (segments g).size ≤ flags.blockSize →
        MemCache.writeSegment flags segments block g ≠ none
  memRead : ∀ {segments : SegmentRef → BlockSegment} {slices : List (Option SegmentRef)}
    {offset size : Nat}, slices.length = blockSliceCount flags → 0 < size →
      offset + size ≤ flags.blockSize →
        MemCache.readSegments flags segments slices offset size ≠ none
  checksum : ∀ {offset size : Nat}, flags.sliceSize ∣ offset → offset + size ≤ flags.blockSize →
    ∀ p ∈ DiskCache.checksumPieces flags offset size, p.InBounds flags

/-- All indexes are in bounds if and only if the slices fill the blocks and the files have room for
all blocks. -/
theorem indexes_inBounds_iff (hle : flags.blockSize ≤ flags.blockFileSize)
    (hlt : flags.blockFileSize < 18446744073709551616)
    (hslices : flags.blockSize / flags.sliceSize < 2147483648)
    (hblocks : flags.blockFileSize / flags.blockSize < 2147483648) (quotaBytes : Nat) :
    IndexesInBounds flags quotaBytes ↔ flags.sliceSize ∣ flags.blockSize ∧
      u32 (quotaBytes / flags.blockSize : Nat) ≤ CacheDir.room flags quotaBytes := by
  have hblock := flags.blockSize_pos
  have hbound : flags.blockSize < 18446744073709551616 := by omega
  have hfiles : ∀ i, CacheDir.InFile flags quotaBytes i ↔ i < CacheDir.room flags quotaBytes :=
    fun i => CacheDir.inFile_iff hle (by omega)
  constructor
  · intro h
    constructor
    · -- a read of the last byte of a block
      have hlen : (List.replicate (blockSliceCount flags) none : List (Option SegmentRef)).length =
        blockSliceCount flags := List.length_replicate
      have hread := @IndexesInBounds.memRead flags quotaBytes h (fun _ => default) _
        (flags.blockSize - 1) 1 hlen Nat.one_pos (by omega)
      exact dvd_of_inSlices hslices hbound (readSegments_start hlen hread)
    · by_contra hroom
      rw [Nat.not_le] at hroom
      obtain ⟨dir, dir', hdir, halloc⟩ :=
        (@CacheDir.handed_out_iff flags 0 quotaBytes _).mpr hroom
      obtain ⟨quota, hquota, hin⟩ := h.file hdir halloc
      rw [show dir.blockFiles = CacheDir.initBlockFiles flags quotaBytes from
        congrArg Prod.fst hdir.inv.2] at hquota
      have hfile : CacheDir.InFile flags quotaBytes (CacheDir.room flags quotaBytes) :=
        ⟨quota, hquota, hin flags.blockSize 0 (by omega)⟩
      exact Nat.lt_irrefl _ ((hfiles _).mp hfile)
  · intro h
    obtain ⟨hdvd, hroom⟩ := h
    have hall : ∀ p < flags.blockSize, InSlices flags (off2slice flags p) :=
      fun p hp => inSlices_of_dvd hdvd hslices hbound hp
    constructor
    · intro index dir dir' i hdir halloc
      have hi := CacheDir.handed_out_iff.mp ⟨dir, dir', hdir, halloc⟩
      obtain ⟨quota, hquota, hin⟩ := (hfiles i).mpr (hi.trans_le hroom)
      refine ⟨quota, ?_, fun offset size hfit => ?_⟩
      · rw [show dir.blockFiles = CacheDir.initBlockFiles flags quotaBytes from
          congrArg Prod.fst hdir.inv.2]
        exact hquota
      · unfold CacheDir.getBlockFileOffset at hin ⊢
        omega
    · intro segments block g hlen hpos hfit
      unfold MemCache.writeSegment
      dsimp only
      split
      next => exact Option.some_ne_none _
      next =>
        apply setBlockSegment_defined hlen (hall _ (by omega))
        apply hall
        have hu : u32 (((segments g).offset : Int) + (segments g).size - 1) ≤
            (segments g).offset + (segments g).size - 1 := by
          unfold u32
          omega
        omega
    · intro segments slices offset size hlen hpos hfit
      apply readSegments_defined hlen (hall _ (by omega))
      rw [show (offset : Int) + size - 1 = (offset + size - 1 : Nat) by omega]
      exact hall _ (by omega)
    · intro offset size _ hfit
      exact checksumPieces_inSlices hall hfit

/-- The sizes that are set by default, and a terabyte. -/
theorem indexes_inBounds_default : IndexesInBounds .default 1099511627776 :=
  (indexes_inBounds_iff (by decide) (by decide) (by decide) (by decide) _).mpr
    ⟨by decide, by decide +kernel⟩

/-- Files of one block and a half: the third block has no file. Blocks of one slice and a third:
the last byte has no slice. -/
theorem indexes_not_inBounds :
    (∃ dir dir', CacheDir.Reachable { Flags.small with blockFileSize := 6 } 0 12 dir ∧
      dir.allocBlock = some (some 2, dir') ∧
      dir.blockFiles[CacheDir.fileIndex { Flags.small with blockFileSize := 6 } 2]? = none) ∧
    MemCache.readSegments { Flags.small with sliceSize := 3, sliceSize_pos := by decide }
      (fun _ => default) [none] 3 1 = none ∧
    blockSliceCount { Flags.small with sliceSize := 3, sliceSize_pos := by decide } = 1 := by
  refine ⟨?_, by decide +kernel, by decide +kernel⟩
  have hcreate : CacheDir.Reachable { Flags.small with blockFileSize := 6 } 0 12 _ := .create
  have hruns : (CacheDir.create { Flags.small with blockFileSize := 6 } 0 12).allocBlock.any
      (fun x => x.2.allocBlock.any fun y => y.2.allocBlock.any fun z => z.1 == some 2 &&
        (y.2.blockFiles[CacheDir.fileIndex { Flags.small with blockFileSize := 6 } 2]?).isNone) =
      true := by decide +kernel
  obtain ⟨x, hx, hruns⟩ := (Option.any_eq_true _ _).mp hruns
  obtain ⟨y, hy, hruns⟩ := (Option.any_eq_true _ _).mp hruns
  obtain ⟨z, hz, hruns⟩ := (Option.any_eq_true _ _).mp hruns
  rw [Bool.and_eq_true, beq_iff_eq, Option.isNone_iff_eq_none] at hruns
  refine ⟨y.2, z.2, (hcreate.alloc hx).alloc hy, ?_, hruns.2⟩
  rw [hz, ← hruns.1]

end Slices

/-! ## Writes of blocks -/

section Writes

variable {pf : Platform}

/-- Whatever a write transfers, it is no more than the aligned size of the buffer. -/
theorem BlockFile.write_within (pos : FilePos) (buf : IOBuf) (s : State) :
    Spec True (BlockFile.write pf pos buf) (fun _ t => ∃ data : IOBuf,
      data.length ≤ BlockFile.alignedSize pf.flags buf.length ∧
        t.files = writeBytes s.files pos data) s := by
  have hbuf : buf.length ≤ BlockFile.alignedSize pf.flags buf.length := by
    unfold BlockFile.alignedSize
    split
    next => exact le_rfl
    next => exact roundUp_ge _ _ pf.flags.ioAlignUnitSize_pos
  have hout : ∀ (data : IOBuf) (u : State), u.files = s.files →
      data.length ≤ BlockFile.alignedSize pf.flags buf.length →
        Spec True (BlockFile.transferOut pf pos data) (fun _ t => ∃ data : IOBuf,
          data.length ≤ BlockFile.alignedSize pf.flags buf.length ∧
            t.files = writeBytes s.files pos data) u := by
    intro data u hfiles hlen
    unfold BlockFile.transferOut tick
    simp only [spec_bind, spec_modifyGet]
    split
    next => exact ⟨[], Nat.zero_le _, by rw [writeBytes_nil]; exact hfiles⟩
    next count _ =>
      refine ⟨data.take count, ?_, ?_⟩
      · rw [List.length_take]
        exact (Nat.min_le_right _ _).trans hlen
      · rw [← hfiles]
  unfold BlockFile.write
  simp only [spec_bind]
  unfold tick
  simp only [spec_modifyGet]
  apply spec_ite
  · intro _
    exact hout buf _ rfl hbuf
  · intro hcached
    simp only [spec_bind]
    apply (BlockFile.alignIobuf_spec buf _).mono
    intro r u hu
    obtain ⟨hueq, hr⟩ := hu
    cases r with
    | none => exact ⟨[], Nat.zero_le _, by rw [writeBytes_nil, hueq]⟩
    | some data =>
        obtain ⟨pad, _, hlen⟩ := hr data rfl
        apply hout data u (by rw [hueq])
        unfold BlockFile.alignedSize
        have hpages : pf.flags.enableOsPageCache = false := by
          cases hpages : pf.flags.enableOsPageCache with
          | true => simp [hpages] at hcached
          | false => rfl
        rw [hpages, if_neg Bool.false_ne_true, hlen]

/-- A block is written at its own place only. -/
theorem DiskCache.writeBlock_within (id : BlockId) (seg : BlockSegment) (s : State) :
    Spec False (DiskCache.writeBlock pf id seg) (fun _ t => ∃ data : IOBuf,
      (data = [] ∨ pf.flags.sliceSize ∣ seg.offset) ∧
        data.length ≤ BlockFile.alignedSize pf.flags seg.buf.length ∧
        t.files = writeBytes s.files (filePos pf.flags id seg.offset) data) s := by
  unfold writeBlock
  simp only [spec_bind, spec_read]
  apply spec_ite
  · intro _
    exact ⟨[], Or.inl rfl, Nat.zero_le _, (writeBytes_nil _ _).symm⟩
  · intro _
    apply spec_ite
    · intro _
      exact ⟨[], Or.inl rfl, Nat.zero_le _, (writeBytes_nil _ _).symm⟩
    · intro haligned
      have hdvd : pf.flags.sliceSize ∣ seg.offset := by
        rw [not_not] at haligned
        exact Nat.dvd_of_mod_eq_zero haligned
      -- checksums are kept in memory
      have hwrite : ∀ u : State, u.files = s.files →
          Spec False (locate pf id seg.offset) (fun pos v =>
            Spec False (BlockFile.write pf pos seg.buf) (fun _ t => ∃ data : IOBuf,
              (data = [] ∨ pf.flags.sliceSize ∣ seg.offset) ∧
                data.length ≤ BlockFile.alignedSize pf.flags seg.buf.length ∧
                t.files = writeBytes s.files (filePos pf.flags id seg.offset) data) v) u := by
        intro u hu
        unfold locate
        simp only [spec_bind, spec_read]
        apply spec_deref False.elim
        intro dir _
        apply spec_require False.elim
        intro _
        apply spec_deref False.elim
        intro quota _
        apply ((BlockFile.write_within _ _ _).weaken fun h => h.elim).mono
        intro _ t ht
        obtain ⟨data, hlen, hfiles⟩ := ht
        refine ⟨data, Or.inr hdvd, hlen, ?_⟩
        rw [hfiles, hu]
        rfl
      simp only [spec_bind]
      apply spec_when
      · intro _
        unfold updateBlockChecksum checksumLoop
        simp only [spec_bind]
        apply spec_require False.elim
        intro _
        apply spec_require False.elim
        intro _
        exact hwrite _ rfl
      · intro _
        exact hwrite s rfl

/-- Alignment does not make a write longer than its block. -/
theorem alignedSize_fits {flags : Flags} (halign : flags.ioAlignUnitSize ∣ flags.sliceSize)
    (hslice : flags.sliceSize ∣ flags.blockSize) {offset size : Nat}
    (hoffset : flags.sliceSize ∣ offset) (hfit : offset + size ≤ flags.blockSize) :
    offset + BlockFile.alignedSize flags size ≤ flags.blockSize := by
  have hrest : flags.ioAlignUnitSize ∣ flags.blockSize - offset :=
    Nat.dvd_sub (halign.trans hslice) (halign.trans hoffset)
  unfold BlockFile.alignedSize
  split
  next => exact hfit
  next =>
    have := BlockFile.roundUp_le flags.ioAlignUnitSize_pos hrest (Nat.le_sub_of_add_le' hfit)
    omega

theorem readBytes_filePos (flags : Flags) (files : Nat → Nat → Nat → UInt8) (id : BlockId)
    (offset size : Nat) : readBytes files (filePos flags id offset) size =
      (List.range size).map fun k => diskByte flags files id (offset + k) := by
  unfold readBytes
  apply List.map_congr_left
  intro k _
  unfold diskByte filePos CacheDir.getBlockFileOffset
  rw [Nat.add_assoc]

/-- The ranges of blocks are within their files and disjoint, and no write leaves its own. -/
theorem block_writes_apart (halign : pf.flags.ioAlignUnitSize ∣ pf.flags.sliceSize)
    (hslice : pf.flags.sliceSize ∣ pf.flags.blockSize)
    (hfile : pf.flags.blockSize ∣ pf.flags.blockFileSize) (hpos : 0 < pf.flags.blockFileSize)
    (hcount : pf.flags.blockFileSize / pf.flags.blockSize < 4294967296) {quotaBytes i : Nat}
    (hi : i < quotaBytes / pf.flags.blockSize) :
    (∃ quota,
      (CacheDir.initBlockFiles pf.flags quotaBytes)[CacheDir.fileIndex pf.flags i]? = some quota ∧
      ∀ offset size, pf.flags.sliceSize ∣ offset → offset + size ≤ pf.flags.blockSize →
        CacheDir.getBlockFileOffset pf.flags i 0 ≤ CacheDir.getBlockFileOffset pf.flags i offset ∧
        CacheDir.getBlockFileOffset pf.flags i offset + BlockFile.alignedSize pf.flags size ≤
          CacheDir.getBlockFileOffset pf.flags i pf.flags.blockSize ∧
        CacheDir.getBlockFileOffset pf.flags i pf.flags.blockSize ≤ quota) ∧
    (∀ j, j ≠ i → CacheDir.fileIndex pf.flags j = CacheDir.fileIndex pf.flags i →
      CacheDir.getBlockFileOffset pf.flags i pf.flags.blockSize ≤
          CacheDir.getBlockFileOffset pf.flags j 0 ∨
        CacheDir.getBlockFileOffset pf.flags j pf.flags.blockSize ≤
          CacheDir.getBlockFileOffset pf.flags i 0) ∧
    ∀ (dirIndex : Nat) (seg : BlockSegment) (s : State) st t,
      seg.offset + seg.buf.length ≤ pf.flags.blockSize →
      DiskCache.writeBlock pf ⟨dirIndex, i⟩ seg s = some (st, t) →
        ∀ id : BlockId, id ≠ ⟨dirIndex, i⟩ → ∀ offset size, offset + size ≤ pf.flags.blockSize →
          readBytes t.files (filePos pf.flags id offset) size =
            readBytes s.files (filePos pf.flags id offset) size := by
  have hblock := pf.flags.blockSize_pos
  have hroom : i < CacheDir.room pf.flags quotaBytes := by
    rw [CacheDir.room_eq hfile hcount]
    exact hi
  obtain ⟨quota, hquota, hend⟩ :=
    (CacheDir.inFile_iff (Nat.le_of_dvd hpos hfile) hcount).mpr hroom
  refine ⟨⟨quota, hquota, fun offset size hoffset hfit => ⟨?_, ?_, hend⟩⟩, ?_, ?_⟩
  · unfold CacheDir.getBlockFileOffset
    omega
  · have hfits := alignedSize_fits halign hslice hoffset hfit
    unfold CacheDir.getBlockFileOffset
    omega
  · intro j hne hsame
    unfold CacheDir.fileIndex at hsame
    unfold CacheDir.getBlockFileOffset
    have hmod : j % fileBlockCount pf.flags ≠ i % fileBlockCount pf.flags := by
      intro heq
      apply hne
      rw [← Nat.div_add_mod j (fileBlockCount pf.flags), hsame, heq, Nat.div_add_mod]
    rcases Nat.lt_or_gt_of_ne hmod with hlt | hgt
    · have := Nat.mul_le_mul_right pf.flags.blockSize (Nat.succ_le_of_lt hlt)
      rw [Nat.succ_mul] at this
      omega
    · have := Nat.mul_le_mul_right pf.flags.blockSize (Nat.succ_le_of_lt hgt)
      rw [Nat.succ_mul] at this
      omega
  · intro dirIndex seg s st t hfit hrun id hne offset size hrange
    obtain ⟨data, hdata, hlen, hfiles⟩ :=
      (DiskCache.writeBlock_within ⟨dirIndex, i⟩ seg s).outcome hrun
    have hinside : seg.offset + data.length ≤ pf.flags.blockSize := by
      rcases hdata with hempty | hdvd
      · rw [hempty, List.length_nil]
        omega
      · have := alignedSize_fits halign hslice hdvd hfit
        omega
    rw [readBytes_filePos, readBytes_filePos, hfiles]
    apply List.map_congr_left
    intro k hk
    rw [List.mem_range] at hk
    exact diskByte_writeBytes_ne s.files hne hinside (by omega)

/-- The last block of a file of two blocks, and its last byte. -/
theorem block_writes_apart_small :
    ∃ quota, (CacheDir.initBlockFiles .small 20)[CacheDir.fileIndex .small 3]? = some quota ∧
      CacheDir.getBlockFileOffset .small 3 2 + BlockFile.alignedSize .small 1 ≤
        CacheDir.getBlockFileOffset .small 3 4 ∧
      CacheDir.getBlockFileOffset .small 3 4 ≤ quota := by
  obtain ⟨⟨quota, hquota, hranges⟩, _⟩ := @block_writes_apart (.simple .small .reliable)
    (by decide) (by decide) (by decide) (by decide) (by decide) 20 3 (by decide)
  exact ⟨quota, hquota, (hranges 2 1 (by decide) (by decide)).2⟩

end Writes

end StarCache
