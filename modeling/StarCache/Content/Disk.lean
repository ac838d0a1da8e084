import StarCache.Content.MemRead
import StarCache.DiskCache
import Mathlib.Data.List.GetD

/-!
# Blocks on disk

What a disk block holds, slice by slice, and what `DiskCache` makes of it. A write
of a good segment puts its slices on disk, and never touches another block; a read
that succeeds yields a good segment again.
-/

namespace StarCache

open Prog MachineInt

/-- The setting in which bytes survive: exact index arithmetic, padding that stays
inside the block, and transfers that are complete or fail. -/
structure DataHyp (pf : Platform) : Prop extends Geometry pf.flags where
  align : pf.flags.enableOsPageCache = true ∨ pf.flags.ioAlignUnitSize ∣ pf.flags.sliceSize
  pwrite : ∀ n size count, pf.env.pwrite n size = .ok count → count = size
  pread : ∀ n size count, pf.env.pread n size = .ok count → count = size

theorem dataHyp_reliable {flags : Flags} (hgeo : Geometry flags)
    (halign : flags.enableOsPageCache = true ∨ flags.ioAlignUnitSize ∣ flags.sliceSize) :
    DataHyp (.simple flags .reliable) where
  toGeometry := hgeo
  align := halign
  pwrite _ _ _ h := (Except.ok.inj h).symm
  pread _ _ _ h := (Except.ok.inj h).symm

theorem geometry_small : Geometry .small := ⟨by decide, by decide⟩

/-- From clock `n₀` on no read fails, and the size of a block fits an `int`. -/
structure ReadHyp (pf : Platform) (n₀ : Nat) : Prop where
  pread : ∀ n, n₀ ≤ n → ∀ size, pf.env.pread n size = .ok size
  memalign : ∀ n, n₀ ≤ n → pf.env.posixMemalign n = true
  block_lt : pf.flags.blockSize < 2147483648

theorem readHyp_reliable {flags : Flags} (hblock : flags.blockSize < 2147483648) (start : Nat) :
    ReadHyp (.simple flags .reliable) start where
  pread _ _ _ := rfl
  memalign _ _ := rfl
  block_lt := hblock

/-! ## Places -/

section Places

variable (flags : Flags)

def filePos (id : BlockId) (p : Nat) : FilePos :=
  ⟨id.dirIndex, CacheDir.fileIndex flags id.blockIndex,
    CacheDir.getBlockFileOffset flags id.blockIndex p⟩

def diskByte (files : Nat → Nat → Nat → UInt8) (id : BlockId) (p : Nat) : UInt8 :=
  files id.dirIndex (CacheDir.fileIndex flags id.blockIndex)
    (CacheDir.getBlockFileOffset flags id.blockIndex p)

/-- The block lies in an open file. -/
def Located (mgr : DiskSpaceManager) (id : BlockId) : Prop :=
  mgr.quotaBytes ≠ 0 ∧ fileBlockCount flags ≠ 0 ∧ ∃ dir, mgr.cacheDirs[id.dirIndex]? = some dir ∧
    ∃ quota, dir.blockFiles[CacheDir.fileIndex flags id.blockIndex]? = some quota

/-- All blocks that can be handed out lie in open files. -/
def Covered (mgr : DiskSpaceManager) : Prop :=
  ∀ id dir, mgr.cacheDirs[id.dirIndex]? = some dir → id.blockIndex < dir.totalBlockCount →
    Located flags mgr id

variable {flags}

theorem Located.layout {mgr mgr' : DiskSpaceManager} {id : BlockId} (h : Located flags mgr id)
    (hsame : DiskSpaceManager.SameLayout mgr mgr') : Located flags mgr' id := by
  obtain ⟨hquota, hcount, dir, hdir, quota, hfile⟩ := h
  have hget := congrArg (·[id.dirIndex]?) hsame.dirs
  simp only [List.getElem?_map, hdir, Option.map_some, Option.map_eq_some_iff] at hget
  obtain ⟨dir', hdir', hlayout⟩ := hget
  obtain ⟨hfiles, _⟩ := Prod.mk.inj hlayout
  exact ⟨hsame.quota ▸ hquota, hcount, dir', hdir', quota, hfiles ▸ hfile⟩

theorem Covered.layout {mgr mgr' : DiskSpaceManager} (h : Covered flags mgr)
    (hsame : DiskSpaceManager.SameLayout mgr mgr') : Covered flags mgr' := by
  intro id dir' hdir' hlt
  have hget := congrArg (·[id.dirIndex]?) hsame.dirs
  simp only [List.getElem?_map, hdir', Option.map_some] at hget
  obtain ⟨dir, hdir, hlayout⟩ := Option.map_eq_some_iff.mp hget.symm
  obtain ⟨_, htotal⟩ := Prod.mk.inj hlayout
  exact (h id dir hdir (by omega)).layout hsame

/-- An allocated block lies in an open file. -/
theorem Covered.located {mgr : DiskSpaceManager} (h : Covered flags mgr) {ids : List BlockId}
    (hinv : mgr.Inv flags ids) {id : BlockId} (hid : id ∈ ids) : Located flags mgr id := by
  obtain ⟨dir, hdir, hfree⟩ := (hinv.allocated id).mpr hid
  exact h id dir hdir ((hinv.dir dir (List.mem_of_getElem? hdir)).freeBit_lt hfree)

/-- Distinct blocks have no byte in common. -/
theorem filePos_disjoint {id id' : BlockId} (hne : id ≠ id')
    {p p' : Nat} (hp : p < flags.blockSize) (hp' : p' < flags.blockSize)
    (hdir : id.dirIndex = id'.dirIndex)
    (hfile : CacheDir.fileIndex flags id.blockIndex = CacheDir.fileIndex flags id'.blockIndex) :
    CacheDir.getBlockFileOffset flags id.blockIndex p ≠
      CacheDir.getBlockFileOffset flags id'.blockIndex p' := by
  intro heq
  apply hne
  unfold CacheDir.getBlockFileOffset at heq
  unfold CacheDir.fileIndex at hfile
  have hbs := flags.blockSize_pos
  have hmod : id.blockIndex % fileBlockCount flags = id'.blockIndex % fileBlockCount flags := by
    have hdiv := congrArg (· / flags.blockSize) heq
    simp only [Nat.mul_comm _ flags.blockSize, Nat.mul_add_div hbs, Nat.div_eq_of_lt hp,
      Nat.div_eq_of_lt hp', Nat.add_zero] at hdiv
    exact hdiv
  have hblock : id.blockIndex = id'.blockIndex := by
    rw [← Nat.div_add_mod id.blockIndex (fileBlockCount flags), hfile, hmod, Nat.div_add_mod]
  cases id
  cases id'
  simp_all

/-- A write changes only the bytes it covers. -/
theorem writeBytes_of_lt (files : Nat → Nat → Nat → UInt8) (pos : FilePos) (data : IOBuf)
    {d f o : Nat} (h : d = pos.dirIndex → f = pos.fileIndex → pos.offset ≤ o →
      pos.offset + data.length ≤ o) : writeBytes files pos data d f o = files d f o := by
  unfold writeBytes
  split
  next hin =>
    have := h hin.1 hin.2.1 hin.2.2
    rw [List.getD_eq_default]
    omega
  next => rfl

@[simp] theorem writeBytes_nil (files : Nat → Nat → Nat → UInt8) (pos : FilePos) :
    writeBytes files pos [] = files := by
  funext d f o
  exact writeBytes_of_lt _ _ _ fun _ _ h => h

/-- The bytes of a block after a write at offset `o` of the same block. -/
theorem diskByte_writeBytes (files : Nat → Nat → Nat → UInt8) (id : BlockId) (o : Nat)
    (data : IOBuf) (p : Nat) :
    diskByte flags (writeBytes files (filePos flags id o) data) id p =
      if o ≤ p then data.getD (p - o) (diskByte flags files id p) else diskByte flags files id p := by
  unfold diskByte
  have hoffset : ∀ q, CacheDir.getBlockFileOffset flags id.blockIndex q =
      CacheDir.getBlockFileOffset flags id.blockIndex 0 + q := by
    intro q
    unfold CacheDir.getBlockFileOffset
    omega
  by_cases hle : o ≤ p
  · have hpos : (filePos flags id o).offset ≤
        CacheDir.getBlockFileOffset flags id.blockIndex p := by
      show CacheDir.getBlockFileOffset flags id.blockIndex o ≤ _
      rw [hoffset o, hoffset p]
      omega
    unfold writeBytes
    rw [if_pos hle, if_pos ⟨rfl, rfl, hpos⟩]
    congr 1
    show _ - CacheDir.getBlockFileOffset flags id.blockIndex o = _
    rw [hoffset o, hoffset p]
    omega
  · rw [if_neg hle]
    refine writeBytes_of_lt _ _ _ fun _ _ hpos => ?_
    have : CacheDir.getBlockFileOffset flags id.blockIndex o ≤
        CacheDir.getBlockFileOffset flags id.blockIndex p := hpos
    rw [hoffset o, hoffset p] at this
    omega

/-- A write that stays inside its block leaves the other blocks alone. -/
theorem diskByte_writeBytes_ne (files : Nat → Nat → Nat → UInt8) {id id' : BlockId}
    (hne : id' ≠ id) {o : Nat} {data : IOBuf} (hroom : o + data.length ≤ flags.blockSize)
    {p : Nat} (hp : p < flags.blockSize) :
    diskByte flags (writeBytes files (filePos flags id o) data) id' p =
      diskByte flags files id' p := by
  unfold diskByte
  refine writeBytes_of_lt _ _ _ fun hdir hfile hle => ?_
  by_contra hlt
  -- a byte inside the written range would be a byte of both blocks
  have hle' : CacheDir.getBlockFileOffset flags id.blockIndex o ≤
      CacheDir.getBlockFileOffset flags id'.blockIndex p := hle
  have hlt' : ¬ CacheDir.getBlockFileOffset flags id.blockIndex o + data.length ≤
      CacheDir.getBlockFileOffset flags id'.blockIndex p := hlt
  have hq : ∃ q, q < flags.blockSize ∧ CacheDir.getBlockFileOffset flags id.blockIndex q =
      CacheDir.getBlockFileOffset flags id'.blockIndex p := by
    unfold CacheDir.getBlockFileOffset at hle' hlt' ⊢
    exact ⟨id'.blockIndex % fileBlockCount flags * flags.blockSize + p -
      id.blockIndex % fileBlockCount flags * flags.blockSize, by omega, by omega⟩
  obtain ⟨q, hq, heq⟩ := hq
  exact filePos_disjoint (Ne.symm hne) hq hp hdir.symm hfile.symm heq

end Places

/-! ## Slices on disk -/

section OnDisk

variable (pf : Platform)

/-- Slice `k` of the block is on disk, with its checksum. -/
structure SliceOnDisk (s : State) (bytes : IOBuf) (id : BlockId) (k : Nat) : Prop where
  content : ∀ p, k * pf.flags.sliceSize ≤ p → p < (k + 1) * pf.flags.sliceSize →
    p < bytes.length → some (diskByte pf.flags s.files id p) = bytes[p]?
  checksum : pf.flags.enableDiskChecksum = true →
    s.checksums id k = pf.crc32c ((bytes.drop (k * pf.flags.sliceSize)).take pf.flags.sliceSize)

def BlockOnDisk (s : State) (bytes : IOBuf) (id : BlockId) : Prop :=
  ∀ k, k * pf.flags.sliceSize < bytes.length → SliceOnDisk pf s bytes id k

/-- Block `id` and its checksums are as before. -/
def SameBlock (s t : State) (id : BlockId) : Prop :=
  t.checksums id = s.checksums id ∧
    ∀ p < pf.flags.blockSize, diskByte pf.flags t.files id p = diskByte pf.flags s.files id p

variable {pf}

theorem SliceOnDisk.same {s t : State} {bytes : IOBuf} {id : BlockId} {k : Nat}
    (h : SliceOnDisk pf s bytes id k) (hlen : bytes.length ≤ pf.flags.blockSize)
    (hsame : SameBlock pf s t id) : SliceOnDisk pf t bytes id k := by
  refine ⟨fun p hlo hhi hp => ?_, fun hon => ?_⟩
  · rw [hsame.2 p (by omega)]
    exact h.content p hlo hhi hp
  · rw [hsame.1]
    exact h.checksum hon

theorem BlockOnDisk.same {s t : State} {bytes : IOBuf} {id : BlockId}
    (h : BlockOnDisk pf s bytes id) (hlen : bytes.length ≤ pf.flags.blockSize)
    (hsame : SameBlock pf s t id) : BlockOnDisk pf t bytes id :=
  fun k hk => (h k hk).same hlen hsame

end OnDisk

/-! ## Checksums -/

section Checksums

open DiskCache

variable {flags : Flags} {bytes : IOBuf}

/-- The bytes of slice `k` in a good segment are those of the block. -/
theorem SegmentOk.slice {seg : BlockSegment} (hseg : SegmentOk flags bytes seg) {m n : Nat}
    (hm : seg.offset = m * flags.sliceSize) (hn : n * flags.sliceSize < seg.size) :
    IOBuf.appendTo seg.buf (min flags.sliceSize (seg.size - n * flags.sliceSize))
        (n * flags.sliceSize) =
      (bytes.drop ((m + n) * flags.sliceSize)).take flags.sliceSize := by
  unfold IOBuf.appendTo
  apply List.ext_getElem?
  intro p
  rw [List.getElem?_take, List.getElem?_take, List.getElem?_drop, List.getElem?_drop,
    Nat.add_mul]
  by_cases hp : p < flags.sliceSize
  · rw [if_pos hp]
    by_cases hin : n * flags.sliceSize + p < seg.size
    · rw [if_pos (by omega), hseg.content _ hin, hm, Nat.add_assoc]
    · rw [if_neg (by omega), eq_comm, List.getElem?_eq_none_iff]
      rcases hseg.ends with ⟨e, he⟩ | hend
      · -- the slice would reach over the end of the segment
        exfalso
        have hlt : m + n < e := by
          rw [hm, Nat.mul_comm flags.sliceSize e] at he
          apply Nat.lt_of_mul_lt_mul_right (a := flags.sliceSize)
          rw [Nat.add_mul]
          omega
        have hle := Nat.mul_le_mul_right flags.sliceSize (Nat.succ_le_of_lt hlt)
        rw [Nat.succ_eq_add_one, Nat.add_mul, Nat.add_mul, Nat.one_mul] at hle
        rw [hm, Nat.mul_comm flags.sliceSize e] at he
        omega
      · omega
  · rw [if_neg hp, if_neg (by omega)]

theorem checksumPieces_eq (h : Geometry flags) {m size : Nat}
    (hfit : m * flags.sliceSize + size ≤ flags.blockSize) :
    checksumPieces flags (m * flags.sliceSize) size =
      (List.range ((size + (flags.sliceSize - 1)) / flags.sliceSize)).map fun n =>
        ⟨(m + n : Nat), n * flags.sliceSize, min flags.sliceSize (size - n * flags.sliceSize)⟩ := by
  have hle := h.block_le
  have hslice := h.slice_le
  have hss := flags.sliceSize_pos
  have hu32 : u32 flags.sliceSize = flags.sliceSize := u32_of_lt (by omega)
  unfold checksumPieces
  rw [hu32]
  apply List.map_congr_left
  intro n hn
  have hlt : n * flags.sliceSize < size := by
    rw [List.mem_range, Nat.lt_iff_add_one_le, Nat.le_div_iff_mul_le hss, Nat.add_mul] at hn
    omega
  rw [ChecksumPiece.mk.injEq]
  refine ⟨?_, rfl, ?_⟩
  · rw [off2slice_natCast (by omega), ← Nat.add_mul, Nat.mul_div_cancel _ hss]
  · rw [u32_of_lt (by omega)]

/-- One more pass is needed exactly while bytes are left. -/
theorem lt_pieces_iff {n size : Nat} :
    n < (size + (flags.sliceSize - 1)) / flags.sliceSize ↔ n * flags.sliceSize < size := by
  have hss := flags.sliceSize_pos
  rw [Nat.lt_iff_add_one_le, Nat.le_div_iff_mul_le hss, Nat.add_mul]
  omega

theorem checksumPieces_inBounds (h : Geometry flags) {m size : Nat}
    (hfit : m * flags.sliceSize + size ≤ flags.blockSize) :
    ∀ p ∈ checksumPieces flags (m * flags.sliceSize) size, p.InBounds flags := by
  rw [checksumPieces_eq h hfit]
  intro p hp
  obtain ⟨n, hn, rfl⟩ := List.mem_map.mp hp
  rw [List.mem_range, lt_pieces_iff] at hn
  refine ⟨Int.natCast_nonneg _, ?_⟩
  rw [h.blockSliceCount, Int.ofNat_lt]
  apply h.slice_lt
  rw [Nat.add_mul]
  omega

/-- A loop of updates at consecutive indexes. -/
theorem foldl_update_range (f : Nat → UInt32) (sums : Nat → UInt32) (m k : Nat) : ∀ count : Nat,
    ((List.range count).foldl (fun sums n => Function.update sums (m + n) (f n)) sums) k =
      if m ≤ k ∧ k < m + count then f (k - m) else sums k
  | 0 => by simp
  | count + 1 => by
      rw [List.range_succ, List.foldl_append, List.foldl_cons, List.foldl_nil,
        Function.update_apply, foldl_update_range f sums m k count]
      by_cases hk : k = m + count
      · subst hk
        simp
      · rw [if_neg hk]
        by_cases hin : m ≤ k ∧ k < m + count
        · rw [if_pos hin, if_pos (by omega)]
        · rw [if_neg hin, if_neg (by omega)]

end Checksums

/-! ## Block files -/

namespace BlockFile

variable {pf : Platform} {D T : Prop} {n₀ : Nat}

theorem ioError_not_ok (context : String) (e : Errno) : (ioError context e.code).ok = false := by
  unfold ioError Status.ok
  simpa using e.code_ne

theorem roundUp_ge (n unit : Nat) (hunit : 0 < unit) : n ≤ roundUp n unit := by
  unfold roundUp
  have := Nat.lt_div_mul_add (a := n + (unit - 1)) hunit
  omega

theorem roundUp_of_dvd {n unit : Nat} (hunit : 0 < unit) (h : unit ∣ n) : roundUp n unit = n := by
  obtain ⟨m, rfl⟩ := h
  unfold roundUp
  rw [Nat.mul_add_div hunit, Nat.div_eq_of_lt (by omega), Nat.add_zero, Nat.mul_comm]

/-- Rounding up stays below a multiple of the unit. -/
theorem roundUp_le {n unit bound : Nat} (hunit : 0 < unit) (h : unit ∣ bound) (hle : n ≤ bound) :
    roundUp n unit ≤ bound := by
  obtain ⟨m, rfl⟩ := h
  unfold roundUp
  rw [Nat.mul_comm unit m] at hle ⊢
  apply Nat.mul_le_mul_right
  have : (n + (unit - 1)) / unit < m + 1 := by
    rw [Nat.div_lt_iff_lt_mul hunit, Nat.add_mul]
    omega
  omega

theorem alignIobuf_spec (buf : IOBuf) (s : State) :
    Spec T (alignIobuf pf buf) (fun r t => t = { s with clock := s.clock + 1 } ∧
      ∀ data, r = some data → ∃ pad, data = buf ++ pad ∧
        data.length = roundUp buf.length pf.flags.ioAlignUnitSize) s := by
  unfold alignIobuf tick
  simp only [spec_bind, spec_modifyGet]
  refine spec_ite (fun _ => ?_) fun _ => ?_
  · rw [spec_pure]
    refine ⟨rfl, ?_⟩
    rintro data ⟨⟩
    refine ⟨_, rfl, ?_⟩
    have := roundUp_ge buf.length pf.flags.ioAlignUnitSize pf.flags.ioAlignUnitSize_pos
    rw [List.length_append, List.length_map, List.length_range]
    omega
  · rw [spec_pure]
    exact ⟨rfl, by simp⟩

theorem transferOut_spec (hD : D → DataHyp pf) (pos : FilePos) (data : IOBuf) (s : State) :
    Spec T (transferOut pf pos data) (fun st t =>
      t = { s with clock := s.clock + 1, files := t.files } ∧
        (D → t.files = if st.ok then writeBytes s.files pos data else s.files)) s := by
  unfold transferOut tick
  simp only [spec_bind, spec_modifyGet]
  split
  next e _ =>
    rw [spec_pure]
    refine ⟨rfl, fun _ => ?_⟩
    rw [ioError_not_ok]
    rfl
  next count hcount =>
    simp only [spec_bind, spec_modify, spec_pure]
    refine ⟨trivial, fun hd => ?_⟩
    rw [(hD hd).pwrite _ _ _ hcount, List.take_length]
    rfl

/-- What a block file holds after a write. -/
theorem write_spec (hD : D → DataHyp pf) (pos : FilePos) (buf : IOBuf) (s : State) :
    Spec T (write pf pos buf) (fun st t =>
      t = { s with clock := t.clock, files := t.files } ∧ s.clock ≤ t.clock ∧
        (D → ∃ pad, t.files = (if st.ok then writeBytes s.files pos (buf ++ pad) else s.files) ∧
          (pad = [] ∨ pf.flags.enableOsPageCache = false ∧
            (buf ++ pad).length = roundUp buf.length pf.flags.ioAlignUnitSize))) s := by
  unfold write
  simp only [spec_bind]
  unfold tick
  simp only [spec_modifyGet]
  refine spec_ite (fun _ => ?_) fun hnot => ?_
  · refine (transferOut_spec hD pos buf _).mono ?_
    rintro st t ⟨heq, hfiles⟩
    refine ⟨by rw [heq], by rw [heq]; dsimp only; omega, fun hd => ⟨[], ?_, Or.inl rfl⟩⟩
    rw [List.append_nil]
    exact hfiles hd
  · simp only [spec_bind]
    refine (alignIobuf_spec buf _).mono ?_
    rintro r u ⟨rfl, hr⟩
    cases r with
    | none =>
        rw [spec_pure]
        refine ⟨rfl, by dsimp only; omega, fun _ => ⟨[], ?_, Or.inl rfl⟩⟩
        rfl
    | some data =>
        obtain ⟨pad, hdata, hlen⟩ := hr data rfl
        subst hdata
        refine (transferOut_spec hD pos (buf ++ pad) _).mono ?_
        rintro st t ⟨heq, hfiles⟩
        refine ⟨by rw [heq], by rw [heq]; dsimp only; omega, fun hd => ⟨pad, hfiles hd, Or.inr ⟨?_, hlen⟩⟩⟩
        simp only [Bool.or_eq_true, not_or, Bool.not_eq_true] at hnot
        exact hnot.1

theorem length_readBytes (files : Nat → Nat → Nat → UInt8) (pos : FilePos) (size : Nat) :
    (readBytes files pos size).length = size := by
  unfold readBytes
  simp

/-- What a read of a block file yields: the bytes of the file, or nothing at all. -/
theorem read_spec {R : Prop} (hdata : D → DataHyp pf) (hR : R → D ∧ ReadHyp pf n₀) (pos : FilePos)
    (size : Nat) {s : State} (hclock : n₀ ≤ s.clock) :
    Spec T (BlockFile.read pf pos size) (fun r t => t = { s with clock := s.clock + 1 } ∧
      (D → r.1.ok = true → r.2 = readBytes s.files pos (alignedSize pf.flags size) ∨
        (r.2 = [] ∧ 2147483648 ≤ alignedSize pf.flags size)) ∧
      (R → alignedSize pf.flags size < 2147483648 → r.1.ok = true)) s := by
  unfold BlockFile.read tick
  simp only [spec_bind, spec_modifyGet]
  refine spec_ite (fun hfail => ?_) fun _ => ?_
  · rw [spec_pure]
    refine ⟨rfl, fun _ hok => ?_, fun hr _ => ?_⟩
    · cases hok
    · have := (hR hr).2.memalign s.clock hclock
      simp [this] at hfail
  · split
    next e herr =>
      rw [spec_pure]
      refine ⟨rfl, fun _ hok => ?_, fun hr _ => ?_⟩
      · rw [ioError_not_ok] at hok
        cases hok
      · rw [(hR hr).2.pread s.clock hclock] at herr
        cases herr
    next count hcount =>
      refine spec_ite (fun hneg => ?_) fun _ => ?_
      · rw [spec_pure]
        refine ⟨rfl, fun hd _ => Or.inr ⟨rfl, ?_⟩, fun hr hlt => ?_⟩
        · rw [← (hdata hd).pread _ _ _ hcount]
          by_contra hlt
          rw [i32_of_lt (Nat.not_le.mp hlt)] at hneg
          omega
        · have := (hdata (hR hr).1).pread _ _ _ hcount
          rw [this, i32_of_lt hlt] at hneg
          omega
      · simp only [spec_bind, spec_read, spec_pure]
        refine ⟨trivial, fun hd _ => Or.inl ?_, fun _ _ => rfl⟩
        rw [(hdata hd).pread _ _ _ hcount, Nat.min_self, length_readBytes, Nat.sub_self]
        simp

end BlockFile

end StarCache
