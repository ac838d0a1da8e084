import StarCache.Impl.Evict
import Mathlib.Data.Nat.ModEq
import Mathlib.Tactic.Linarith

/-!
# Slices of a block in memory

What a segment has to satisfy to stand for a part of a block whose bytes are
`bytes`, and what the slice map of a memory block then guarantees: reads return
the bytes of the block with gaps exactly at the null slices, and the fullness
test of the flush implies that there is no null slice. A segment may end inside a
slice: a read whose end wraps around can put such a segment into memory.
-/

namespace StarCache

open Prog MachineInt

/-- The sizes for which the 32-bit index arithmetic is exact. -/
structure Geometry (flags : Flags) : Prop where
  block_le : flags.blockSize ≤ 2147483648
  slice_dvd : flags.sliceSize ∣ flags.blockSize

section Arithmetic

variable {flags : Flags}

theorem off2slice_natCast {p : Nat} (hp : p < 2147483648) :
    off2slice flags p = (p / flags.sliceSize : Nat) := by
  unfold off2slice
  rw [u64_of_lt (by omega)]
  exact i32_of_lt (Nat.lt_of_le_of_lt (Nat.div_le_self _ _) hp)

theorem Geometry.blockSliceCount (h : Geometry flags) :
    blockSliceCount flags = flags.blockSize / flags.sliceSize := by
  unfold StarCache.blockSliceCount
  apply u32_of_lt
  have := Nat.div_le_self flags.blockSize flags.sliceSize
  have := h.block_le
  omega

theorem Geometry.slice_le (h : Geometry flags) : flags.sliceSize ≤ flags.blockSize :=
  Nat.le_of_dvd flags.blockSize_pos h.slice_dvd

/-- The slice of a position of the block is a slice of the block. -/
theorem Geometry.slice_lt (h : Geometry flags) {k : Nat}
    (hk : k * flags.sliceSize < flags.blockSize) : k < flags.blockSize / flags.sliceSize := by
  obtain ⟨m, hm⟩ := h.slice_dvd
  have hpos := flags.sliceSize_pos
  rw [hm, Nat.mul_div_cancel_left m hpos]
  rw [hm, Nat.mul_comm] at hk
  exact Nat.lt_of_mul_lt_mul_left hk

theorem sliceLower_natCast {k : Nat} (hk : k * flags.sliceSize < 4294967296) :
    sliceLower flags k = k * flags.sliceSize := by
  unfold sliceLower
  exact_mod_cast u32_of_lt hk

end Arithmetic

variable (flags : Flags) (bytes : IOBuf)

/-- Slice `k` starts inside the segment. -/
def BlockSegment.Covers (seg : BlockSegment) (k : Nat) : Prop :=
  seg.offset ≤ k * flags.sliceSize ∧ k * flags.sliceSize < seg.offset + seg.size

instance (seg : BlockSegment) (k : Nat) : Decidable (seg.Covers flags k) :=
  inferInstanceAs (Decidable (_ ∧ _))

/-- The segment holds slice `k` of a block of `n` bytes up to its end. -/
def BlockSegment.Fills (n : Nat) (seg : BlockSegment) (k : Nat) : Prop :=
  n ≤ seg.offset + seg.size ∨ (k + 1) * flags.sliceSize ≤ seg.offset + seg.size

instance (n : Nat) (seg : BlockSegment) (k : Nat) : Decidable (seg.Fills flags n k) :=
  inferInstanceAs (Decidable (_ ∨ _))

/-- A segment of a block of `n` bytes that begins on a slice boundary. -/
structure Spans (n : Nat) (seg : BlockSegment) : Prop where
  aligned : flags.sliceSize ∣ seg.offset
  pos : 0 < seg.size
  fits : seg.offset + seg.size ≤ n
  long : seg.size ≤ seg.buf.length

/-- A segment of whole slices of a block of `n` bytes, the last of which may be cut off by the end
of the block. -/
structure WholeSlices (n : Nat) (seg : BlockSegment) : Prop where
  aligned : flags.sliceSize ∣ seg.offset
  pos : 0 < seg.size
  fits : seg.offset + seg.size ≤ n
  ends : flags.sliceSize ∣ seg.offset + seg.size ∨ seg.offset + seg.size = n
  long : seg.size ≤ seg.buf.length

/-- A segment that holds its part of the block; behind the end of the block its
buffer may be padded. -/
structure SegmentOk (seg : BlockSegment) : Prop where
  aligned : flags.sliceSize ∣ seg.offset
  pos : 0 < seg.size
  fits : seg.offset + seg.size ≤ bytes.length
  ends : flags.sliceSize ∣ seg.offset + seg.size ∨ seg.offset + seg.size = bytes.length
  long : seg.size ≤ seg.buf.length
  tight : seg.buf.length = seg.size ∨ seg.offset + seg.size = bytes.length
  room : seg.offset + seg.buf.length ≤ flags.blockSize
  content : ∀ p < seg.size, seg.buf[p]? = bytes[seg.offset + p]?

/-- A segment that holds a part of the block, which may end inside a slice; its buffer may go on
up to the end of that slice. -/
structure SegmentPart (seg : BlockSegment) : Prop where
  aligned : flags.sliceSize ∣ seg.offset
  pos : 0 < seg.size
  fits : seg.offset + seg.size ≤ bytes.length
  long : seg.size ≤ seg.buf.length
  tight : seg.offset + seg.size = bytes.length ∨ ∀ k, seg.offset + seg.size ≤ k * flags.sliceSize →
    seg.offset + seg.buf.length ≤ k * flags.sliceSize
  room : seg.offset + seg.buf.length ≤ flags.blockSize
  content : ∀ p < seg.buf.length, seg.offset + p < bytes.length → seg.buf[p]? = bytes[seg.offset + p]?

/-- Slice `k` is in memory. -/
def Resident (slices : List (Option SegmentRef)) (k : Nat) : Prop :=
  ∃ g, slices[k]? = some (some g)

/-- A slice map whose segments hold the block; a segment in use has all slices it covers. The
slices in `W` are held up to their ends. -/
structure SlicesOk (W : Nat → Prop) (segments : SegmentRef → BlockSegment)
    (slices : List (Option SegmentRef)) : Prop where
  length : slices.length = flags.blockSize / flags.sliceSize
  segment : ∀ k g, slices[k]? = some (some g) → SegmentPart flags bytes (segments g) ∧
    (segments g).Covers flags k ∧ ∀ k', (segments g).Covers flags k' → slices[k']? = some (some g)
  fills : ∀ k g, slices[k]? = some (some g) → W k → (segments g).Fills flags bytes.length k

/-- Parts of the block that do not meet and are not in memory, in order. -/
structure Loaded (W : Nat → Prop) (slices : List (Option SegmentRef)) (segs : List BlockSegment) :
    Prop where
  segments : ∀ seg ∈ segs, SegmentPart flags bytes seg
  apart : segs.Pairwise fun x y => x.offset + x.size ≤ y.offset
  fresh : ∀ seg ∈ segs, ∀ k, seg.Covers flags k → ¬ Resident slices k
  fills : ∀ seg ∈ segs, ∀ k, seg.Covers flags k → W k → seg.Fills flags bytes.length k

variable {flags bytes}

section Writing

variable {W : Nat → Prop} {segments : SegmentRef → BlockSegment} {block : MemBlockItem}

theorem not_resident_new {state : BlockState} {k : Nat} :
    ¬ Resident (MemBlockItem.new flags state).slices k := by
  rintro ⟨g, hg⟩
  cases List.eq_of_mem_replicate (List.mem_of_getElem? hg)

theorem slicesOk_new (h : Geometry flags) (state : BlockState) :
    SlicesOk flags bytes W segments (MemBlockItem.new flags state).slices := by
  refine ⟨?_, fun k g hg => absurd ⟨g, hg⟩ not_resident_new,
    fun k g hg => absurd ⟨g, hg⟩ not_resident_new⟩
  unfold MemBlockItem.new
  rw [List.length_replicate, h.blockSliceCount]

/-- The covered slices are the run of indexes the write loop visits. -/
theorem covers_iff {seg : BlockSegment} (haligned : flags.sliceSize ∣ seg.offset)
    (hsize : 0 < seg.size) (k : Nat) :
    seg.Covers flags k ↔
      seg.offset / flags.sliceSize ≤ k ∧ k ≤ (seg.offset + seg.size - 1) / flags.sliceSize := by
  obtain ⟨m, hm⟩ := haligned
  have hpos := flags.sliceSize_pos
  unfold BlockSegment.Covers
  rw [Nat.le_div_iff_mul_le hpos, hm, Nat.mul_div_cancel_left m hpos]
  constructor
  · rintro ⟨hle, hlt⟩
    rw [Nat.mul_comm] at hle
    exact ⟨Nat.le_of_mul_le_mul_right hle hpos, by omega⟩
  · rintro ⟨hle, hlt⟩
    have := Nat.mul_le_mul_right flags.sliceSize hle
    rw [Nat.mul_comm] at this
    exact ⟨this, by omega⟩

/-- The last slice of a segment. -/
theorem covers_last {seg : BlockSegment} (haligned : flags.sliceSize ∣ seg.offset)
    (hpos : 0 < seg.size) : seg.Covers flags ((seg.offset + seg.size - 1) / flags.sliceSize) := by
  rw [covers_iff haligned hpos]
  exact ⟨Nat.div_le_div_right (by omega), Nat.le_refl _⟩

/-- A segment that begins on a slice boundary and is a part of the block fills its slices when it
ends on such a boundary or with the block. -/
theorem fills_of_ends {seg : BlockSegment} {n k : Nat}
    (hends : flags.sliceSize ∣ seg.offset + seg.size ∨ seg.offset + seg.size = n)
    (hk : seg.Covers flags k) : seg.Fills flags n k := by
  rcases hends with ⟨m, hm⟩ | hend
  · right
    have hlt := hk.2
    rw [hm, Nat.mul_comm flags.sliceSize] at hlt ⊢
    exact Nat.mul_le_mul_right _ (Nat.lt_of_mul_lt_mul_right hlt)
  · exact Or.inl (Nat.le_of_eq hend.symm)

/-- A segment that fills its last slice ends on a slice boundary or with the block. -/
theorem ends_of_fills {seg : BlockSegment} {n : Nat} (haligned : flags.sliceSize ∣ seg.offset)
    (hpos : 0 < seg.size) (hfits : seg.offset + seg.size ≤ n)
    (h : ∀ k, seg.Covers flags k → seg.Fills flags n k) :
    flags.sliceSize ∣ seg.offset + seg.size ∨ seg.offset + seg.size = n := by
  rcases h _ (covers_last haligned hpos) with hend | hend
  · exact Or.inr (Nat.le_antisymm hfits hend)
  · left
    have hlt := Nat.lt_mul_div_succ (seg.offset + seg.size - 1) flags.sliceSize_pos
    rw [Nat.mul_comm] at hlt
    have heq : seg.offset + seg.size =
        ((seg.offset + seg.size - 1) / flags.sliceSize + 1) * flags.sliceSize := by omega
    rw [heq]
    exact Nat.dvd_mul_left _ _

theorem SegmentOk.part {seg : BlockSegment} (h : SegmentOk flags bytes seg) :
    SegmentPart flags bytes seg := by
  have hfits := h.fits
  refine ⟨h.aligned, h.pos, h.fits, h.long, ?_, h.room, fun p hp hin => ?_⟩
  · rcases h.tight with htight | hend
    · right
      intro k hk
      rwa [htight]
    · exact Or.inl hend
  · apply h.content
    rcases h.tight with htight | hend
    · rwa [← htight]
    · omega

theorem SegmentOk.fills {seg : BlockSegment} (h : SegmentOk flags bytes seg) {k : Nat}
    (hk : seg.Covers flags k) : seg.Fills flags bytes.length k := fills_of_ends h.ends hk

/-- A part of the block that ends on a slice boundary or with the block. -/
theorem SegmentPart.ok {seg : BlockSegment} (h : SegmentPart flags bytes seg)
    (hends : flags.sliceSize ∣ seg.offset + seg.size ∨ seg.offset + seg.size = bytes.length) :
    SegmentOk flags bytes seg := by
  have hlong := h.long
  have hfits := h.fits
  refine ⟨h.aligned, h.pos, h.fits, hends, h.long, ?_, h.room, fun p hp => ?_⟩
  · rcases h.tight with hend | htight
    · exact Or.inr hend
    · rcases hends with ⟨m, hm⟩ | hend
      · rw [Nat.mul_comm] at hm
        have := htight m (Nat.le_of_eq hm)
        exact Or.inl (by omega)
      · exact Or.inr hend
  · exact h.content p (by omega) (by omega)

/-- Where no segment ends inside a slice. -/
theorem SlicesOk.segmentOk {slices : List (Option SegmentRef)} {k : Nat} {g : SegmentRef}
    (h : SlicesOk flags bytes W segments slices) (hg : slices[k]? = some (some g))
    (hW : ∀ k, (segments g).Covers flags k → W k) : SegmentOk flags bytes (segments g) := by
  obtain ⟨hpart, _, hall⟩ := h.segment k g hg
  refine hpart.ok (ends_of_fills hpart.aligned hpart.pos hpart.fits fun j hj => ?_)
  exact h.fills j g (hall j hj) (hW j hj)

theorem SlicesOk.mono {W' : Nat → Prop} {slices : List (Option SegmentRef)}
    (h : SlicesOk flags bytes W segments slices)
    (hW : ∀ k g, slices[k]? = some (some g) → W' k → W k ∨ (segments g).Fills flags bytes.length k) :
    SlicesOk flags bytes W' segments slices := by
  refine ⟨h.length, h.segment, fun k g hg hk => ?_⟩
  rcases hW k g hg hk with hold | hfills
  · exact h.fills k g hg hold
  · exact hfills

theorem SegmentPart.take_buf {seg : BlockSegment} (h : SegmentPart flags bytes seg) :
    seg.buf.take seg.size = (bytes.drop seg.offset).take seg.size := by
  have hlong := h.long
  have hfits := h.fits
  apply List.ext_getElem?
  intro p
  rw [List.getElem?_take, List.getElem?_take]
  split
  next hp => rw [h.content p (by omega) (by omega), List.getElem?_drop]
  next => rfl

/-- The write loop sets exactly the covered slices. -/
theorem getElem?_fillSlices {seg : BlockSegment} (haligned : flags.sliceSize ∣ seg.offset)
    (hsize : 0 < seg.size) (slices : List (Option SegmentRef)) (g : SegmentRef)
    (hlast : (seg.offset + seg.size - 1) / flags.sliceSize < slices.length) (k : Nat) :
    (MemBlockItem.fillSlices slices (seg.offset / flags.sliceSize : Nat)
        ((seg.offset + seg.size - 1) / flags.sliceSize : Nat) g)[k]? =
      if seg.Covers flags k then some (some g) else slices[k]? := by
  have hiff := covers_iff haligned hsize k
  unfold MemBlockItem.fillSlices
  rw [List.getElem?_mapIdx]
  by_cases hk : seg.Covers flags k
  · have hk' := hiff.mp hk
    rw [if_pos hk, List.getElem?_eq_getElem (by omega), Option.map_some, if_pos (by omega)]
  · rw [if_neg hk]
    cases slices[k]? with
    | none => rfl
    | some x =>
        rw [Option.map_some, if_neg]
        intro hk'
        exact hk (hiff.mpr (by omega))

/-- Writing a segment sets the slices it covers, and no others. -/
theorem writeSegment_get (h : Geometry flags) {n : Nat} (hn : n ≤ flags.blockSize)
    (hlength : block.slices.length = flags.blockSize / flags.sliceSize) {g : SegmentRef}
    (hseg : Spans flags n (segments g)) :
    ∃ block', MemCache.writeSegment flags segments block g = some block' ∧
      block'.state = block.state ∧ block'.slices.length = block.slices.length ∧
      ∀ k, block'.slices[k]? =
        if (segments g).Covers flags k then some (some g) else block.slices[k]? := by
  have hfits := hseg.fits
  have hsize := hseg.pos
  have hle := h.block_le
  have hpos := flags.sliceSize_pos
  have hstart : off2slice flags (segments g).offset = ((segments g).offset / flags.sliceSize : Nat) :=
    off2slice_natCast (by omega)
  have hu32 : u32 ((segments g).offset + (segments g).size - 1) =
      (segments g).offset + (segments g).size - 1 := by
    rw [show ((segments g).offset + (segments g).size - 1 : Int) =
      ((segments g).offset + (segments g).size - 1 : Nat) by omega]
    exact u32_of_lt (by omega)
  have hstop : off2slice flags (u32 ((segments g).offset + (segments g).size - 1)) =
      (((segments g).offset + (segments g).size - 1) / flags.sliceSize : Nat) := by
    rw [hu32]
    exact off2slice_natCast (by omega)
  have hbuf : (segments g).buf.length ≠ 0 := by
    have := hseg.long
    omega
  have hfirst : (segments g).offset / flags.sliceSize ≤
      ((segments g).offset + (segments g).size - 1) / flags.sliceSize :=
    Nat.div_le_div_right (by omega)
  have hlast : ((segments g).offset + (segments g).size - 1) / flags.sliceSize <
      block.slices.length := by
    rw [hlength]
    apply h.slice_lt
    have := Nat.div_mul_le_self ((segments g).offset + (segments g).size - 1) flags.sliceSize
    omega
  have hget := getElem?_fillSlices hseg.aligned hsize block.slices g hlast
  refine ⟨⟨MemBlockItem.fillSlices block.slices ((segments g).offset / flags.sliceSize : Nat)
      (((segments g).offset + (segments g).size - 1) / flags.sliceSize : Nat) g, block.state⟩,
    ?_, rfl, ?_, hget⟩
  · unfold MemCache.writeSegment MemBlockItem.setBlockSegment
    simp only [hbuf, if_false, hstart, hstop]
    generalize (segments g).offset / flags.sliceSize = first at hfirst
    generalize ((segments g).offset + (segments g).size - 1) / flags.sliceSize = last at hfirst hlast
    rw [if_neg (by omega), if_pos (by omega)]
  · unfold MemBlockItem.fillSlices
    exact List.length_mapIdx

/-- A whole block as one segment, which may be padded. -/
theorem segmentOk_padded {pad : IOBuf} (hgeo : Geometry flags) (hpos : 0 < bytes.length)
    (hroom : (bytes ++ pad).length ≤ flags.blockSize) :
    SegmentOk flags bytes ⟨0, u32 bytes.length, bytes ++ pad⟩ := by
  have hle := hgeo.block_le
  have hlong : bytes.length ≤ (bytes ++ pad).length := by
    rw [List.length_append]
    exact Nat.le_add_right _ _
  have hsize : u32 bytes.length = bytes.length := u32_of_lt (by omega)
  rw [hsize]
  refine ⟨Nat.dvd_zero _, hpos, ?_, Or.inr ?_, hlong, Or.inr ?_, ?_, fun p hp => ?_⟩
  · exact Nat.le_of_eq (Nat.zero_add _)
  · exact Nat.zero_add _
  · exact Nat.zero_add _
  · rwa [Nat.zero_add]
  · rw [List.getElem?_append_left hp, Nat.zero_add]

theorem segmentOk_whole (hgeo : Geometry flags) (hpos : 0 < bytes.length)
    (hlen : bytes.length ≤ flags.blockSize) :
    SegmentOk flags bytes ⟨0, u32 bytes.length, bytes⟩ := by
  have hok : SegmentOk flags bytes ⟨0, u32 bytes.length, bytes ++ []⟩ :=
    segmentOk_padded hgeo hpos (by rwa [List.append_nil])
  rwa [List.append_nil] at hok

theorem WholeSlices.spans {n : Nat} {seg : BlockSegment} (h : WholeSlices flags n seg) :
    Spans flags n seg :=
  ⟨h.aligned, h.pos, h.fits, h.long⟩

theorem SegmentPart.spans {seg : BlockSegment} (h : SegmentPart flags bytes seg) :
    Spans flags bytes.length seg :=
  ⟨h.aligned, h.pos, h.fits, h.long⟩

theorem writeSegment_ok (h : Geometry flags) (hlen : bytes.length ≤ flags.blockSize)
    (hblock : SlicesOk flags bytes W segments block.slices) {g : SegmentRef}
    (hseg : SegmentPart flags bytes (segments g))
    (hfresh : ∀ k, (segments g).Covers flags k → ¬ Resident block.slices k)
    (hfills : ∀ k, (segments g).Covers flags k → W k → (segments g).Fills flags bytes.length k) :
    ∃ block', MemCache.writeSegment flags segments block g = some block' ∧
      block'.state = block.state ∧ SlicesOk flags bytes W segments block'.slices ∧
      ∀ k, block'.slices[k]? =
        if (segments g).Covers flags k then some (some g) else block.slices[k]? := by
  obtain ⟨block', hwrite, hstate, hlength, hget⟩ := writeSegment_get h hlen hblock.length hseg.spans
  refine ⟨block', hwrite, hstate, ⟨hlength.trans hblock.length, fun k g' hg' => ?_,
    fun k g' hg' hk' => ?_⟩, hget⟩
  · rw [hget] at hg'
    by_cases hk : (segments g).Covers flags k
    · rw [if_pos hk] at hg'
      cases hg'
      refine ⟨hseg, hk, ?_⟩
      intro k' hk'
      rw [hget, if_pos hk']
    · rw [if_neg hk] at hg'
      obtain ⟨hok, hcov, hall⟩ := hblock.segment k g' hg'
      refine ⟨hok, hcov, ?_⟩
      intro k' hk'
      -- what the other segment covers is in memory already
      have hold := hall k' hk'
      rw [hget, if_neg fun hnew => hfresh k' hnew ⟨g', hold⟩]
      exact hold
  · rw [hget] at hg'
    by_cases hk : (segments g).Covers flags k
    · rw [if_pos hk] at hg'
      cases hg'
      exact hfills k hk hk'
    · rw [if_neg hk] at hg'
      exact hblock.fills k g' hg' hk'

/-- Parts of the block that fill their slices. -/
theorem Loaded.segmentOk {slices : List (Option SegmentRef)} {segs : List BlockSegment}
    (h : Loaded flags bytes (fun _ => True) slices segs) {seg : BlockSegment} (hseg : seg ∈ segs) :
    SegmentOk flags bytes seg := by
  have hpart := h.segments seg hseg
  refine hpart.ok (ends_of_fills hpart.aligned hpart.pos hpart.fits fun k hk => ?_)
  exact h.fills seg hseg k hk trivial

theorem Loaded.sublist {slices : List (Option SegmentRef)} {segs segs' : List BlockSegment}
    (h : Loaded flags bytes W slices segs) (hsub : segs'.Sublist segs) :
    Loaded flags bytes W slices segs' :=
  ⟨fun seg hseg => h.segments seg (hsub.subset hseg), h.apart.sublist hsub,
    fun seg hseg => h.fresh seg (hsub.subset hseg), fun seg hseg => h.fills seg (hsub.subset hseg)⟩

/-- When the first part has been written the others are still not in memory. -/
theorem Loaded.tail {slices slices' : List (Option SegmentRef)} {g : SegmentRef}
    {refs : List SegmentRef} (h : Loaded flags bytes W slices ((g :: refs).map segments))
    (hget : ∀ k, slices'[k]? = if (segments g).Covers flags k then some (some g) else slices[k]?) :
    Loaded flags bytes W slices' (refs.map segments) := by
  obtain ⟨hsegs, hapart, hfresh, hfills⟩ := h
  rw [List.map_cons] at hsegs hapart hfresh hfills
  obtain ⟨hfirst, hrest⟩ := List.pairwise_cons.mp hapart
  refine ⟨fun seg hseg => hsegs seg (List.mem_cons_of_mem _ hseg), hrest, ?_,
    fun seg hseg => hfills seg (List.mem_cons_of_mem _ hseg)⟩
  intro seg hseg k hk hres
  obtain ⟨g', hg'⟩ := hres
  have hle := hfirst seg hseg
  rw [hget, if_neg] at hg'
  · exact hfresh seg (List.mem_cons_of_mem _ hseg) k hk ⟨g', hg'⟩
  · intro hcov
    have hlow := hk.1
    have hhigh := hcov.2
    omega

theorem loaded_single {seg : BlockSegment} {state : BlockState} (h : SegmentOk flags bytes seg) :
    Loaded flags bytes W (MemBlockItem.new flags state).slices [seg] := by
  refine ⟨?_, List.pairwise_singleton _ _, fun _ _ k _ => not_resident_new, ?_⟩
  · intro seg' hseg'
    rw [List.mem_singleton.mp hseg']
    exact h.part
  · intro seg' hseg' k hk _
    rw [List.mem_singleton.mp hseg'] at hk ⊢
    exact h.fills hk

/-- A list of segments that hold the block can be written, and loses no slice. -/
theorem writeSegments_ok (h : Geometry flags) (hlen : bytes.length ≤ flags.blockSize) :
    ∀ (refs : List SegmentRef) (block : MemBlockItem),
      SlicesOk flags bytes W segments block.slices →
      Loaded flags bytes W block.slices (refs.map segments) →
      ∃ block', refs.foldlM (MemCache.writeSegment flags segments) block = some block' ∧
        block'.state = block.state ∧ SlicesOk flags bytes W segments block'.slices ∧
        (∀ k, Resident block.slices k → Resident block'.slices k) ∧
        ∀ k, (∃ g ∈ refs, (segments g).Covers flags k) → Resident block'.slices k
  | [], block, hblock, _ => ⟨block, rfl, rfl, hblock, fun _ => id, by simp⟩
  | g :: rest, block, hblock, hrefs => by
      obtain ⟨b₁, hb₁, hstate₁, hok₁, hget⟩ :=
        writeSegment_ok h hlen hblock (hrefs.segments _ List.mem_cons_self)
          (hrefs.fresh _ List.mem_cons_self) (hrefs.fills _ List.mem_cons_self)
      obtain ⟨b₂, hb₂, hstate₂, hok₂, hkeep, hcover⟩ := writeSegments_ok h hlen rest b₁ hok₁
        (hrefs.tail hget)
      refine ⟨b₂, ?_, hstate₂.trans hstate₁, hok₂, fun k hk => hkeep k ?_, fun k hk => ?_⟩
      · rw [List.foldlM_cons, hb₁]
        exact hb₂
      · unfold Resident at hk ⊢
        simp only [hget]
        by_cases hcov : (segments g).Covers flags k
        · exact ⟨g, if_pos hcov⟩
        · rwa [if_neg hcov]
      · obtain ⟨g', hg', hcov⟩ := hk
        rcases List.mem_cons.mp hg' with rfl | hg'
        · exact hkeep k ⟨g', by rw [hget, if_pos hcov]⟩
        · exact hcover k ⟨g', hg', hcov⟩

end Writing

/-! ## The fullness test -/

/-- The collection leaves out only a reference it has just taken. -/
theorem mem_foldl_collectSegments {g : SegmentRef} {slices : List (Option SegmentRef)}
    {acc : List SegmentRef} :
    g ∈ slices.foldl MemBlockItem.collectSegments acc ↔ g ∈ acc ∨ some g ∈ slices := by
  induction slices generalizing acc with
  | nil => simp
  | cons x rest ih =>
      rw [List.foldl_cons, ih]
      cases x with
      | none => simp [MemBlockItem.collectSegments]
      | some g' =>
          unfold MemBlockItem.collectSegments
          dsimp only
          split
          next hlast =>
            have hmem := List.mem_of_getLast? hlast
            constructor
            · rintro (hg | hg)
              · exact Or.inl hg
              · exact Or.inr (List.mem_cons_of_mem _ hg)
            · rintro (hg | hg)
              · exact Or.inl hg
              · rcases List.mem_cons.mp hg with heq | hg
                · cases heq
                  exact Or.inl hmem
                · exact Or.inr hg
          next => simp [or_assoc]

theorem mem_listSegments (slices : List (Option SegmentRef)) (state : BlockState)
    (g : SegmentRef) :
    g ∈ (MemBlockItem.mk slices state).listSegments ↔ some g ∈ slices := by
  unfold MemBlockItem.listSegments
  rw [mem_foldl_collectSegments]
  simp

/-- As far as the segments are contiguous, every slice is in memory. -/
theorem continuous_resident {segments : SegmentRef → BlockSegment}
    {slices : List (Option SegmentRef)} : ∀ (refs : List SegmentRef) (size : Nat),
      (∀ g ∈ refs, ∀ k, (segments g).Covers flags k → Resident slices k) →
      (∀ k, k * flags.sliceSize < size → Resident slices k) →
      ∀ k, k * flags.sliceSize <
          StarCacheImpl.continuousSegmentsSize (refs.map segments) size → Resident slices k
  | [], size, _, hsize => hsize
  | g :: rest, size, hrefs, hsize => by
      rw [List.map_cons, StarCacheImpl.continuousSegmentsSize]
      split
      next => exact hsize
      next heq =>
        rw [not_not] at heq
        refine continuous_resident rest _ (fun g' hg' => hrefs g' (List.mem_cons_of_mem _ hg')) ?_
        intro k hk
        by_cases hlt : k * flags.sliceSize < size
        · exact hsize k hlt
        · exact hrefs g List.mem_cons_self k ⟨by omega, by omega⟩

/-- As far as the segments are contiguous, every byte lies in one of them. -/
theorem continuous_covers : ∀ (segs : List BlockSegment) {size p : Nat}, size ≤ p →
    p < StarCacheImpl.continuousSegmentsSize segs size →
      ∃ seg ∈ segs, seg.offset ≤ p ∧ p < seg.offset + seg.size
  | [], size, p, hlow, hhigh => absurd hhigh (Nat.not_lt.mpr hlow)
  | seg :: rest, size, p, hlow, hhigh => by
      rw [StarCacheImpl.continuousSegmentsSize] at hhigh
      split at hhigh
      next => omega
      next heq =>
        rw [not_not] at heq
        by_cases hin : p < size + seg.size
        · exact ⟨seg, List.mem_cons_self, by omega, by omega⟩
        · obtain ⟨seg', hmem, hseg'⟩ := continuous_covers rest (Nat.not_lt.mp hin) hhigh
          exact ⟨seg', List.mem_cons_of_mem _ hmem, hseg'⟩

/-- In a block that passes the test no segment ends inside a slice. -/
theorem SlicesOk.of_full {W : Nat → Prop} {segments : SegmentRef → BlockSegment}
    {block : MemBlockItem} (h : SlicesOk flags bytes W segments block.slices)
    (hfull : StarCacheImpl.continuousSegmentsSize (block.listSegments.map segments) 0 =
      bytes.length) : SlicesOk flags bytes (fun _ => True) segments block.slices := by
  refine h.mono fun k g hg _ => Or.inr ?_
  obtain ⟨hseg, hcov, _⟩ := h.segment k g hg
  have hss := flags.sliceSize_pos
  have hstep : (k + 1) * flags.sliceSize = k * flags.sliceSize + flags.sliceSize := by ring
  have hlow := hcov.2
  have hfits := hseg.fits
  -- the last byte of the slice
  obtain ⟨p, hp⟩ : ∃ p, p = min ((k + 1) * flags.sliceSize) bytes.length - 1 := ⟨_, rfl⟩
  obtain ⟨seg, hmem, hstart, hstop⟩ := continuous_covers (block.listSegments.map segments)
    (Nat.zero_le p) (by rw [hfull]; omega)
  obtain ⟨g', hg', rfl⟩ := List.mem_map.mp hmem
  obtain ⟨j, hj⟩ := List.mem_iff_getElem?.mp
    ((mem_listSegments block.slices block.state g').mp hg')
  obtain ⟨hseg', _, hall⟩ := h.segment j g' hj
  have hcov' : (segments g').Covers flags k := by
    refine ⟨?_, by omega⟩
    obtain ⟨m, hm⟩ := hseg'.aligned
    rw [Nat.mul_comm] at hm
    rw [hm] at hstart ⊢
    have hlt : m * flags.sliceSize < (k + 1) * flags.sliceSize := by omega
    exact Nat.mul_le_mul_right _ (Nat.le_of_lt_succ (Nat.lt_of_mul_lt_mul_right hlt))
  obtain rfl : g' = g := Option.some.inj (Option.some.inj ((hall k hcov').symm.trans hg))
  unfold BlockSegment.Fills
  omega

/-! ## The write loop of a block -/

theorem slices_of_writeSegment {flags : Flags} {segments : SegmentRef → BlockSegment}
    {block block' : MemBlockItem} {g x : SegmentRef}
    (h : MemCache.writeSegment flags segments block g = some block')
    (hx : some x ∈ block'.slices) : some x ∈ block.slices ∨ x = g := by
  unfold MemCache.writeSegment MemBlockItem.setBlockSegment at h
  dsimp only at h
  split at h
  next =>
    cases h
    exact Or.inl hx
  next =>
    split at h
    next =>
      cases h
      exact Or.inl hx
    next =>
      split at h
      next =>
        cases h
        unfold MemBlockItem.fillSlices at hx
        obtain ⟨i, hi, heq⟩ := List.mem_mapIdx.mp hx
        split at heq
        next => exact Or.inr (Option.some.inj heq).symm
        next => exact Or.inl (heq ▸ List.getElem_mem hi)
      next => cases h

theorem slices_of_writeSegments {flags : Flags} {segments : SegmentRef → BlockSegment}
    {x : SegmentRef} : ∀ (refs : List SegmentRef) {block block' : MemBlockItem},
      refs.foldlM (MemCache.writeSegment flags segments) block = some block' →
        some x ∈ block'.slices → some x ∈ block.slices ∨ x ∈ refs
  | [], block, block', h, hx => by
      cases h
      exact Or.inl hx
  | g :: rest, block, block', h, hx => by
      rw [List.foldlM_cons] at h
      obtain ⟨block₁, hfirst, hrest⟩ := Option.bind_eq_some_iff.mp h
      rcases slices_of_writeSegments rest hrest hx with hin | hin
      · rcases slices_of_writeSegment hfirst hin with hin | rfl
        · exact Or.inl hin
        · exact Or.inr List.mem_cons_self
      · exact Or.inr (List.mem_cons_of_mem _ hin)

/-- `write_block` uses the slices of the block and the segments, and no others. -/
theorem writeBlock_spec {pf : Platform} {D T : Prop} {s : State} (bytes : IOBuf) {W : Nat → Prop}
    {block : MemBlockItem} {refs : List SegmentRef} (hT : T → D)
    (hD : D → Geometry pf.flags ∧ bytes.length ≤ pf.flags.blockSize ∧
      SlicesOk pf.flags bytes W s.segments block.slices ∧
      Loaded pf.flags bytes W block.slices (refs.map s.segments)) :
    Spec T (MemCache.writeBlock pf block refs) (fun block' t => t = s ∧
      (∀ x, some x ∈ block'.slices → some x ∈ block.slices ∨ x ∈ refs) ∧
      (D → block'.state = block.state ∧ SlicesOk pf.flags bytes W s.segments block'.slices ∧
        (∀ k, Resident block.slices k → Resident block'.slices k) ∧
        ∀ k, (∃ g ∈ refs, (s.segments g).Covers pf.flags k) → Resident block'.slices k)) s := by
  unfold MemCache.writeBlock
  simp only [spec_bind, spec_read]
  refine spec_deref (fun ht hnone => ?_) fun block' hblock' =>
    ⟨rfl, fun x hx => slices_of_writeSegments refs hblock' hx, fun hd => ?_⟩
  · obtain ⟨hgeo, hlen, hslices, hrefs⟩ := hD (hT ht)
    obtain ⟨block', hblock', _⟩ := writeSegments_ok hgeo hlen refs block hslices hrefs
    rw [hnone] at hblock'
    cases hblock'
  · obtain ⟨hgeo, hlen, hslices, hrefs⟩ := hD hd
    obtain ⟨block'', heq, hstate, hok, hkeep, hcover⟩ :=
      writeSegments_ok hgeo hlen refs block hslices hrefs
    rw [hblock'] at heq
    cases heq
    exact ⟨hstate, hok, hkeep, hcover⟩

end StarCache
