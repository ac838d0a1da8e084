import StarCache.Refinement.Promotion

/-!
# Reading a block

A block is read from its memory segments and, between them, from disk. What is
returned is the range that was asked for, whatever the mix; and the read succeeds
when every slice of the range is at hand.
-/

namespace StarCache

open Prog MachineInt

theorem take_append_drop {α : Type} (xs : List α) {a b c : Nat} (hab : a ≤ b) (hbc : b ≤ c) :
    (xs.drop a).take (b - a) ++ (xs.drop b).take (c - b) = (xs.drop a).take (c - a) := by
  rw [show c - a = (b - a) + (c - b) by omega, List.take_add, List.drop_drop,
    show a + (b - a) = b by omega]

theorem append_cut {bytes : IOBuf} {seg : BlockSegment}
    (hcut : seg.buf = (bytes.drop seg.offset).take seg.buf.length) {lo : Nat}
    (hle : lo ≤ seg.offset) : (bytes.drop lo).take (seg.offset - lo) ++ seg.buf =
      (bytes.drop lo).take (seg.offset + seg.buf.length - lo) := by
  have hbuf : seg.buf = (bytes.drop seg.offset).take (seg.offset + seg.buf.length - seg.offset) := by
    rw [Nat.add_sub_cancel_left]
    exact hcut
  calc (bytes.drop lo).take (seg.offset - lo) ++ seg.buf
      = (bytes.drop lo).take (seg.offset - lo) ++
          (bytes.drop seg.offset).take (seg.offset + seg.buf.length - seg.offset) := by rw [← hbuf]
    _ = (bytes.drop lo).take (seg.offset + seg.buf.length - lo) :=
        take_append_drop bytes hle (Nat.le_add_right _ _)

theorem alignedSize_of_dvd {pf : Platform} (hd : DataHyp pf) {size : Nat}
    (h : pf.flags.sliceSize ∣ size) : BlockFile.alignedSize pf.flags size = size := by
  unfold BlockFile.alignedSize
  split
  next => rfl
  next hcache =>
    exact BlockFile.roundUp_of_dvd pf.flags.ioAlignUnitSize_pos
      ((hd.align.resolve_left hcache).trans h)

theorem alignedSize_le {pf : Platform} (hd : DataHyp pf) {offset size : Nat}
    (hoffset : pf.flags.sliceSize ∣ offset) (hfit : offset + size ≤ pf.flags.blockSize) :
    BlockFile.alignedSize pf.flags size ≤ pf.flags.blockSize := by
  unfold BlockFile.alignedSize
  split
  next => omega
  next hcache =>
    have halign := hd.align.resolve_left hcache
    have := BlockFile.roundUp_le pf.flags.ioAlignUnitSize_pos
      (Nat.dvd_sub (halign.trans hd.slice_dvd) (halign.trans hoffset))
      (show size ≤ pf.flags.blockSize - offset by omega)
    omega

/-! ## Looking -/

section Look

variable {pf : Platform} {sc : Scenario pf} {s t u : State} {g : Ghost}

/-- A run that only advances the clock and reorders the eviction policies. -/
structure Looked (sc : Scenario pf) (s : State) (g : Ghost) (t : State) : Prop where
  ran : Ran sc Action.InRead s g t g
  eq : t = { s with
    clock := t.clock
    memTracker := t.memTracker
    diskTracker := t.diskTracker }

theorem Looked.refl : Looked sc s g s := ⟨.refl trivial, rfl⟩

theorem Looked.trans (h : Looked sc s g t) (h' : Looked sc t g u) : Looked sc s g u :=
  ⟨h.ran.trans h'.ran, by rw [h'.eq, h.eq]⟩

theorem DiskCache.DidRead.looked (h : DiskCache.DidRead pf s t) : Looked sc s g t := by
  refine ⟨?_, by rw [h.eq]⟩
  have hidle : Ran sc Action.InRead s g { s with clock := t.clock } g := by
    have hstart : Ran sc Action.InRead s g s g := .refl trivial
    exact idle_ran hstart h.clock
  have htouch : Step sc .touchDisk ⟨{ s with clock := t.clock }, g⟩ ⟨t, g⟩ := by
    have hstep : Step sc .touchDisk ⟨{ s with clock := t.clock }, g⟩
        ⟨{ s with clock := t.clock, diskTracker := t.diskTracker,
                  diskHandles := s.diskHandles }, g⟩ :=
      .touchDisk t.diskTracker s.diskHandles h.inv h.tracked
    rwa [← h.eq] at hstep
  have htouchDisk : Action.InRead .touchDisk := trivial
  refine hidle.step htouchDisk htouch ?_ ?_ ?_
  all_goals rw [h.eq]
  exact fun _ hx => hx

theorem BlockItem.holds_iff {b : BlockItem} {k : Nat} :
    b.Holds k ↔ b.diskBlockItem ≠ none ∨ Resident b.slices k := by
  unfold Holds slices Resident
  cases b.memBlockItem with
  | none => simp
  | some block => simp

/-- Disk blocks can be read without failure. -/
def Scenario.Reads (sc : Scenario pf) : Prop := sc.T ∧ ReadHyp pf sc.start

/-- Slice `k` of the block is in memory. -/
def BlockItem.Cached (k : Nat) (b : BlockItem) : Prop := Resident b.slices k

/-- A range of the block that starts on a slice boundary and ends on one, or with the
block. -/
structure SliceRange (flags : Flags) (bytes : IOBuf) (lo hi : Nat) : Prop where
  aligned : flags.sliceSize ∣ lo
  lt : lo < hi
  le : hi ≤ bytes.length
  ends : flags.sliceSize ∣ hi ∨ hi = bytes.length

/-- A range of the block. Where slices are to be held up to their ends it has to end with one. -/
structure PartRange (flags : Flags) (bytes : IOBuf) (W : Nat → Prop) (lo hi : Nat) : Prop where
  lt : lo < hi
  le : hi ≤ bytes.length
  ends : (flags.sliceSize ∣ hi ∨ hi = bytes.length) ∨ ∀ k, ¬ W k

theorem SliceRange.part {flags : Flags} {bytes : IOBuf} {W : Nat → Prop} {lo hi : Nat}
    (h : SliceRange flags bytes lo hi) : PartRange flags bytes W lo hi :=
  ⟨h.lt, h.le, Or.inl h.ends⟩

variable {bytes : IOBuf} {lo hi : Nat} {W : Nat → Prop}

/-- A read from memory takes and gives back a handle. -/
theorem memRead_looked {T : Prop} (hinv : Inv sc ⟨s, g⟩) (key : BlockKey) (b : BlockItem)
    {offset : Int} {size : Nat} (hT : T → ∀ block, b.memBlockItem = some block → size ≠ 0 →
      MemCache.readSegments pf.flags s.segments block.slices offset size ≠ none) :
    Spec T (MemCache.readBlock pf key b.memBlockItem offset size) (fun segs t =>
      Looked sc s g t ∧ ((b.memBlockItem = none ∨ size = 0) ∧ segs = [] ∨
        ∃ block, b.memBlockItem = some block ∧ size ≠ 0 ∧
          MemCache.readSegments pf.flags s.segments block.slices offset size = some segs)) s := by
  unfold MemCache.readBlock
  cases hmem : b.memBlockItem with
  | none => exact ⟨.refl, Or.inl ⟨Or.inl rfl, rfl⟩⟩
  | some block =>
      refine spec_ite (fun hzero => ⟨.refl, Or.inl ⟨Or.inr hzero, rfl⟩⟩) fun hsize => ?_
      rw [spec_bind]
      have hother : Action.InRead .other := trivial
      have htouch : Action.InRead .touchMem := trivial
      refine (memTouch_spec hinv hother htouch key false).mono ?_
      rintro handle u ⟨hu, hueq, _⟩
      have hhandles : u.memHandles = handle.toList ++ s.memHandles := by rw [hueq]
      rw [spec_bind]
      refine (memRelease_spec (hinv.runs hu) htouch hhandles).mono ?_
      rintro _ v ⟨hv, hveq, _⟩
      have hlooked : Looked sc s g v := by
        refine ⟨⟨hother, hu.trans hv, ?_, ?_, ?_⟩, by rw [hveq, hueq]⟩
        all_goals rw [hveq, hueq]
        exact fun _ hx => hx
      have hsegments : v.segments = s.segments := by rw [hlooked.eq]
      rw [spec_bind, spec_read, hsegments]
      exact spec_deref (fun ht => hT ht block hmem hsize)
        fun segs hsegs => ⟨hlooked, Or.inr ⟨block, rfl, hsize, hsegs⟩⟩

theorem memReadBlock_spec {T w : Prop} (bytes : IOBuf) (hinv : Inv sc ⟨s, g⟩) (hT : T → sc.D)
    (key : BlockKey) (b : BlockItem) {offset : Int} {size : Nat} (hoffset : sc.D → offset = lo)
    (hD : sc.D → 0 < size ∧ lo + size ≤ bytes.length ∧ bytes.length ≤ pf.flags.blockSize ∧
      ∀ block, b.memBlockItem = some block → SlicesOk pf.flags bytes W s.segments block.slices)
    (hw : w → ∀ k, lo / pf.flags.sliceSize ≤ k → k * pf.flags.sliceSize < lo + size → W k) :
    Spec T (MemCache.readBlock pf key b.memBlockItem offset size) (fun segs t =>
      Looked sc s g t ∧ (sc.D → Pieces pf.flags bytes b.slices w lo segs (lo + size))) s := by
  have hpieces : sc.D → ∀ block, b.memBlockItem = some block → ∃ segs,
      MemCache.readSegments pf.flags s.segments block.slices offset size = some segs ∧
        Pieces pf.flags bytes block.slices w lo segs (lo + size) := by
    intro hd block hmem
    obtain ⟨hsize, hfit, hlen, hslices⟩ := hD hd
    obtain ⟨segs, hsome, hpieces, _⟩ := readSegments_pieces (sc.data hd).toGeometry hlen
      (hslices block hmem).holds hsize hfit hw
    exact ⟨segs, (hoffset hd).symm ▸ hsome, hpieces⟩
  refine (memRead_looked hinv key b fun ht block hmem _ hnone => ?_).mono ?_
  · obtain ⟨segs, hsome, _⟩ := hpieces (hT ht) block hmem
    rw [hsome] at hnone
    cases hnone
  rintro segs t ⟨ht, hsegs⟩
  refine ⟨ht, fun hd => ?_⟩
  rcases hsegs with ⟨hnone, rfl⟩ | ⟨block, hmem, _, hsegs⟩
  · have hsize := (hD hd).1
    refine ⟨Nat.le_add_right _ _, fun _ k _ _ ⟨x, hx⟩ => ?_⟩
    unfold BlockItem.slices at hx
    rw [hnone.resolve_right (by omega)] at hx
    simp at hx
  · obtain ⟨segs', hsome, hpieces⟩ := hpieces hd block hmem
    rw [hsome] at hsegs
    cases hsegs
    unfold BlockItem.slices
    rwa [hmem]

end Look

namespace StarCacheImpl

variable {rt : Runtime} {sc : Scenario rt.toPlatform} {s t : State} {g : Ghost} {r : ItemRef}
  {key : BlockKey} {bytes : IOBuf} {lo hi : Nat} {slices : List (Option SegmentRef)}
  {disk : Option BlockId} {T H : Prop} {W : Nat → Prop}

/-! ## Merging -/

/-- The range up to `c` has been read, and what came from disk is good and not in memory. -/
structure Merged (flags : Flags) (bytes : IOBuf) (W : Nat → Prop)
    (slices : List (Option SegmentRef)) (lo c : Nat) (p : ReadProgress) : Prop where
  cursor : p.cursor = c
  le : lo ≤ c
  buf : p.buf = (bytes.drop lo).take (c - lo)
  segments : Loaded flags bytes W slices p.diskSegments
  behind : ∀ seg ∈ p.diskSegments, seg.offset + seg.size ≤ c
  hole : p.holeExist = false

/-- The disk block that may be read from. -/
structure DiskReady (sc : Scenario rt.toPlatform) (s : State) (bytes : IOBuf)
    (disk : Option BlockId) : Prop where
  content : sc.D → bytes.length ≤ rt.flags.blockSize ∧
    ∀ id, disk = some id → BlockOnDisk rt.toPlatform s bytes id
  live : ∀ id, disk = some id → id ∈ s.liveBlocks

theorem DiskReady.looked (h : DiskReady sc s bytes disk) (hlooked : Looked sc s g t) :
    DiskReady sc t bytes disk := by
  refine ⟨fun hD => ⟨(h.content hD).1, fun id hid => ((h.content hD).2 id hid).of_eq ?_ ?_⟩,
    fun id hid => ?_⟩
  all_goals rw [hlooked.eq]
  exact h.live id hid

/-- What a read of the range may count on: `T` excludes undefined behaviour, `H` failure. -/
structure Served (sc : Scenario rt.toPlatform) (T H : Prop) (disk : Option BlockId)
    (slices : List (Option SegmentRef)) (lo hi : Nat) : Prop where
  data : T → sc.D
  subset : H → T
  defined : T → ∀ k, lo ≤ k * rt.flags.sliceSize → k * rt.flags.sliceSize < hi →
    sc.T ∨ Resident slices k
  full : H → ∀ k, lo ≤ k * rt.flags.sliceSize → k * rt.flags.sliceSize < hi →
    (disk ≠ none ∧ sc.Reads) ∨ Resident slices k

theorem Served.mono {c : Nat} (h : Served sc T H disk slices lo hi) (hle : sc.D → lo ≤ c) :
    Served sc T H disk slices c hi :=
  ⟨h.data, h.subset, fun ht k hlow => h.defined ht k (Nat.le_trans (hle (h.data ht)) hlow),
    fun hh k hlow => h.full hh k (Nat.le_trans (hle (h.data (h.subset hh))) hlow)⟩

/-- A slice that is not in memory can be read from disk. -/
theorem Served.gap {c : Nat} (h : Served sc T H disk slices c hi) (hlt : sc.D → c < hi)
    (hgap : sc.D → ∀ k, k * rt.flags.sliceSize = c → ¬ Resident slices k)
    (haligned : H → rt.flags.sliceSize ∣ c) :
    (T → sc.D ∧ (rt.flags.sliceSize ∣ c → sc.T)) ∧ (H → T ∧ sc.Reads) ∧ (H → disk ≠ none) := by
  have hslice : sc.D → rt.flags.sliceSize ∣ c → ∃ k, c ≤ k * rt.flags.sliceSize ∧
      k * rt.flags.sliceSize < hi ∧ ¬ Resident slices k := by
    rintro hd ⟨k, hk⟩
    rw [Nat.mul_comm] at hk
    exact ⟨k, Nat.le_of_eq hk, hk ▸ hlt hd, hgap hd k hk.symm⟩
  have hdisk : H → disk ≠ none ∧ sc.Reads := by
    intro hh
    obtain ⟨k, hlow, hhigh, hnot⟩ := hslice (h.data (h.subset hh)) (haligned hh)
    exact (h.full hh k hlow hhigh).resolve_right hnot
  refine ⟨fun ht => ⟨h.data ht, fun hdvd => ?_⟩, fun hh => ⟨h.subset hh, (hdisk hh).2⟩,
    fun hh => (hdisk hh).1⟩
  obtain ⟨k, hlow, hhigh, hnot⟩ := hslice (h.data ht) hdvd
  exact (h.defined ht k hlow hhigh).resolve_right hnot

/-- A read of a range from the disk block, at the cursor. -/
theorem readGap_spec (hinv : Inv sc ⟨s, g⟩) (cacheId : CacheId) {id : BlockId}
    (hready : DiskReady sc s bytes (some id)) (p : ReadProgress) {c d size : Nat}
    (hT : T → sc.D ∧ (rt.flags.sliceSize ∣ c → sc.T)) (hH : H → T ∧ sc.Reads)
    (hcursor : sc.D → p.cursor = c) (hsize : sc.D → c + size = d)
    (hrange : sc.D → c < d ∧ d ≤ bytes.length) (haligned : H → rt.flags.sliceSize ∣ c)
    (hends : H → rt.flags.sliceSize ∣ d ∨ d = bytes.length) :
    Spec T (readGap rt cacheId id p size) (fun res t => Looked sc s g t ∧
      res.2.holeExist = p.holeExist ∧ (res.1.ok = true ∨ res.2 = p) ∧
      (sc.D → res.1.ok = true → rt.flags.sliceSize ∣ c ∧ ∃ data, res.2 = { p with
          buf := p.buf ++ data.take size
          diskSegments := p.diskSegments ++ [⟨c, size, data⟩] } ∧
        (SegmentPart rt.flags bytes ⟨c, size, data⟩ ∨
          (data = [] ∧ 2147483648 ≤ BlockFile.alignedSize rt.flags size))) ∧
      (H → res.1.ok = true)) s := by
  have hoffset : sc.D → u32 p.cursor = c := by
    intro hD
    have hle := (sc.data hD).toGeometry.block_le
    have hlen := (hready.content hD).1
    obtain ⟨hlt, hhi⟩ := hrange hD
    rw [hcursor hD]
    exact u32_of_lt (by omega)
  unfold readGap
  simp only [spec_bind]
  refine (DiskCache.readBlock_spec bytes sc.data (fun h => (hH h).1) (fun h => (hH h).2.2) cacheId
    id hinv.clock hinv.wf.diskTracker (fun hD => ?_) (fun ht => ?_) fun hh => ?_).mono ?_
  · obtain ⟨hlt, hhi⟩ := hrange hD
    have hsum := hsize hD
    rw [hoffset hD]
    exact ⟨(hready.content hD).2 id rfl, (hready.content hD).1, by omega, by omega⟩
  · obtain ⟨hD, hlocated⟩ := hT ht
    rw [hoffset hD]
    refine ⟨hD, fun hdvd => ?_⟩
    exact (hinv.covered (hlocated hdvd)).located hinv.wf.diskSpace (hready.live id rfl)
  · have hD := (hT (hH hh).1).1
    rw [hoffset hD, hsize hD]
    exact ⟨haligned hh, hends hh⟩
  rintro res t ⟨hread, hdvd, hdata, hok⟩
  refine spec_ite (fun hres => ?_) fun hres => ?_
  · rw [spec_pure]
    refine ⟨hread.looked, rfl, Or.inl rfl, fun hD _ => ⟨?_, res.2, ?_, ?_⟩, fun _ => rfl⟩
    · have := hdvd hres
      rwa [hoffset hD] at this
    · rw [hoffset hD]
      rfl
    · have := hdata hD hres
      rwa [hoffset hD] at this
  · rw [spec_pure]
    exact ⟨hread.looked, rfl, Or.inr rfl, fun _ h => absurd h hres, hok⟩

/-- What comes from disk is no longer than what was asked for. -/
theorem readGap_length (hinv : Inv sc ⟨s, g⟩) (cacheId : CacheId) (id : BlockId) (p : ReadProgress)
    (size : Nat) (hT : ¬ T) : Spec T (readGap rt cacheId id p size) (fun res t =>
      Looked sc s g t ∧ res.2.buf.length ≤ p.buf.length + size) s := by
  unfold readGap
  rw [spec_bind]
  refine (DiskCache.readBlock_spec (D := False) (R := False) [] False.elim False.elim False.elim
    cacheId id hinv.clock hinv.wf.diskTracker False.elim (fun ht => absurd ht hT)
    False.elim).mono ?_
  rintro res t ⟨hread, _⟩
  refine spec_ite (fun _ => ?_) fun _ => ?_
  · refine ⟨hread.looked, ?_⟩
    have hle : (IOBuf.appendTo res.2 size 0).length ≤ size := by
      unfold IOBuf.appendTo
      exact List.length_take_le _ _
    dsimp only
    rw [List.length_append]
    omega
  · exact ⟨hread.looked, Nat.le_add_right _ _⟩

/-- A memory segment follows. -/
theorem Merged.append {flags : Flags} {c : Nat} {p : ReadProgress} {seg : BlockSegment}
    (h : Merged flags bytes W slices lo c p) (hc : c = seg.offset)
    (hcut : seg.buf = (bytes.drop seg.offset).take seg.buf.length) :
    Merged flags bytes W slices lo (seg.offset + seg.buf.length) (p.append seg) := by
  subst hc
  have hle := h.le
  refine ⟨?_, by omega, ?_, h.segments, ?_, h.hole⟩
  · unfold ReadProgress.append
    push_cast
    rfl
  · unfold ReadProgress.append
    dsimp only
    rw [h.buf, append_cut hcut h.le]
  · intro x hx
    exact (h.behind x hx).trans (Nat.le_add_right _ _)

/-- A read from disk follows. -/
theorem Merged.gap {flags : Flags} {c size : Nat} {p : ReadProgress} {data : IOBuf}
    (h : Merged flags bytes W slices lo c p) (hdata : SegmentPart flags bytes ⟨c, size, data⟩)
    (hends : (flags.sliceSize ∣ c + size ∨ c + size = bytes.length) ∨ ∀ k, ¬ W k)
    (hgap : Gap flags slices c (c + size)) :
    Merged flags bytes W slices lo (c + size) { p with
      cursor := (c + size : Nat)
      buf := p.buf ++ data.take size
      diskSegments := p.diskSegments ++ [⟨c, size, data⟩] } := by
  have hle := h.le
  have hmem : ∀ seg ∈ p.diskSegments ++ [(⟨c, size, data⟩ : BlockSegment)],
      seg ∈ p.diskSegments ∨ seg = ⟨c, size, data⟩ := by
    intro seg hseg
    rw [List.mem_append, List.mem_singleton] at hseg
    exact hseg
  refine ⟨rfl, by omega, ?_, ⟨?_, ?_, ?_, ?_⟩, ?_, h.hole⟩
  · have htake : data.take size = (bytes.drop c).take (c + size - c) := by
      rw [Nat.add_sub_cancel_left]
      exact hdata.take_buf
    dsimp only
    rw [h.buf, htake, take_append_drop bytes h.le (Nat.le_add_right _ _)]
  · intro seg hseg
    rcases hmem seg hseg with hseg | rfl
    · exact h.segments.segments seg hseg
    · exact hdata
  · rw [List.pairwise_append]
    refine ⟨h.segments.apart, List.pairwise_singleton _ _, ?_⟩
    intro x hx y hy
    rw [List.mem_singleton.mp hy]
    exact h.behind x hx
  · intro seg hseg k hk
    rcases hmem seg hseg with hseg | rfl
    · exact h.segments.fresh seg hseg k hk
    · exact hgap k hk.1 hk.2
  · intro seg hseg k hk hkW
    rcases hmem seg hseg with hseg | rfl
    · exact h.segments.fills seg hseg k hk hkW
    · rcases hends with hends | hnone
      · exact fills_of_ends hends hk
      · exact absurd hkW (hnone k)
  · intro seg hseg
    rcases hmem seg hseg with hseg | rfl
    · exact (h.behind seg hseg).trans (Nat.le_add_right _ _)
    · exact Nat.le_refl _

/-- The slices from `lo` to `hi` are in memory. -/
def AllResident (flags : Flags) (slices : List (Option SegmentRef)) (lo hi : Nat) : Prop :=
  ∀ k, lo ≤ k * flags.sliceSize → k * flags.sliceSize < hi → Resident slices k

/-- What the merge has read, from `c` on: up to a hole, or up to a gap at the end. -/
structure MergeDone (sc : Scenario rt.toPlatform) (H : Prop) (bytes : IOBuf) (W : Nat → Prop)
    (disk : Option BlockId) (slices : List (Option SegmentRef)) (lo c hi : Nat) (p : ReadProgress)
    (res : Status × ReadProgress) : Prop where
  memory : disk = none → res.2.diskSegments = p.diskSegments
  resident : sc.D → AllResident rt.flags slices c hi → res.2.diskSegments = p.diskSegments
  merged : sc.D → res.1.ok = true → (res.2.holeExist = true ∧ disk = none) ∨
    ∃ c', Merged rt.flags bytes W slices lo c' res.2 ∧ c' ≤ hi ∧
      (H → rt.flags.sliceSize ∣ c' ∨ c' = hi) ∧
      (rt.flags.sliceSize ∣ c' → Gap rt.flags slices c' hi)
  full : H → res.1.ok = true ∧ res.2.holeExist = false

theorem mergeSegments_spec (cacheId : CacheId) (hhi : sc.D → hi ≤ bytes.length) :
    ∀ (segs : List BlockSegment) (c : Nat) {s : State} {p : ReadProgress},
      Inv sc ⟨s, g⟩ → DiskReady sc s bytes disk → Served sc T H disk slices c hi →
      (H → rt.flags.sliceSize ∣ c ∨ c = hi) →
      (sc.D → Pieces rt.flags bytes slices H c segs hi ∧ Merged rt.flags bytes W slices lo c p) →
      Spec T (mergeSegments rt cacheId disk segs p) (fun res t => Looked sc s g t ∧
        MergeDone sc H bytes W disk slices lo c hi p res) s
  | [], c, s, p, _, _, hserved, hc, hD => by
      refine ⟨.refl, fun _ => rfl, fun _ _ => rfl, fun hd _ => Or.inr ?_, fun h => ⟨rfl, ?_⟩⟩
      · obtain ⟨hpieces, hmerged⟩ := hD hd
        exact ⟨c, hmerged, hpieces.1, hc, hpieces.2⟩
      · exact (hD (hserved.data (hserved.subset h))).2.hole
  | seg :: rest, c, s, p, hinv, hready, hserved, hc, hD => by
      unfold mergeSegments
      have hcursor : sc.D → (p.cursor < seg.offset ↔ c < seg.offset) := by
        intro hd
        rw [(hD hd).2.cursor]
        exact Nat.cast_lt
      have hnext : sc.D → c ≤ seg.offset + seg.buf.length := fun hd =>
        Nat.le_trans (hD hd).1.1 (Nat.le_add_right _ _)
      -- what is left of the range after the segment
      have hrest : ∀ {q : ReadProgress} {u : State}, Looked sc s g u →
          (sc.D → Merged rt.flags bytes W slices lo (seg.offset + seg.buf.length) q) →
          (disk = none → q.diskSegments = p.diskSegments) →
          (sc.D → AllResident rt.flags slices c hi → q.diskSegments = p.diskSegments) →
          Spec T (mergeSegments rt cacheId disk rest q) (fun res t => Looked sc s g t ∧
            MergeDone sc H bytes W disk slices lo c hi p res) u := by
        intro q u hu hq hnone hsame
        refine (mergeSegments_spec cacheId hhi rest (seg.offset + seg.buf.length)
          (hu.ran.inv hinv) (hready.looked hu) (hserved.mono hnext) (fun hh => ?_)
          fun hd => ?_).mono ?_
        · obtain ⟨⟨_, _, _, _, _, hends, _⟩, _⟩ := hD (hserved.data (hserved.subset hh))
          exact (hends hh).2
        · obtain ⟨⟨_, _, _, _, _, _, hpieces⟩, _⟩ := hD hd
          exact ⟨hpieces, hq hd⟩
        · rintro res t ⟨ht, hdone⟩
          refine ⟨hu.trans ht, fun h => (hdone.memory h).trans (hnone h), fun hd hall => ?_,
            hdone.merged, hdone.full⟩
          refine (hdone.resident hd fun k hlow => hall k ?_).trans (hsame hd hall)
          exact Nat.le_trans (hnext hd) hlow
      refine spec_ite (fun hlt => ?_) fun hge => ?_
      · have hbefore : sc.D → c < seg.offset ∧ seg.offset < hi := by
          intro hd
          exact ⟨(hcursor hd).mp hlt, (hD hd).1.2.1⟩
        -- a slice that starts at the cursor is not in memory
        have hgap : sc.D → ∀ k, k * rt.flags.sliceSize = c → ¬ Resident slices k := by
          intro hd k hk
          obtain ⟨⟨_, _, _, hgap, _⟩, _⟩ := hD hd
          have hdvd : rt.flags.sliceSize ∣ c := hk ▸ Nat.dvd_mul_left _ _
          exact hgap hdvd k (Nat.le_of_eq hk.symm) (hk ▸ (hbefore hd).1)
        have haligned : H → rt.flags.sliceSize ∣ c := by
          intro hh
          have := hbefore (hserved.data (hserved.subset hh))
          exact (hc hh).resolve_right (by omega)
        obtain ⟨hT, hreads, hdisk'⟩ := hserved.gap (fun hd => by have := hbefore hd; omega) hgap
          haligned
        cases hdisk : disk with
        | none =>
            exact ⟨.refl, fun _ => rfl, fun _ _ => rfl, fun _ _ => Or.inl ⟨rfl, rfl⟩,
              fun hh => absurd hdisk (hdisk' hh)⟩
        | some id =>
            simp only [spec_bind]
            have hsize : sc.D → c + u32 (seg.offset - p.cursor) = seg.offset := by
              intro hd
              have hblock := (sc.data hd).toGeometry.block_le
              have := hbefore hd
              have := hhi hd
              have := (hready.content hd).1
              rw [(hD hd).2.cursor, ← Int.ofNat_sub (by omega), u32_of_lt (by omega)]
              omega
            have hstart : sc.D → rt.flags.sliceSize ∣ seg.offset := fun hd =>
              (hD hd).1.2.2.1 (hbefore hd).1
            refine (readGap_spec hinv cacheId (hdisk ▸ hready) p hT hreads (fun hd => (hD hd).2.cursor)
              hsize (fun hd => ?_) haligned fun hh => ?_).mono ?_
            · have hlast := hhi hd
              obtain ⟨hfirst, hlt'⟩ := hbefore hd
              exact ⟨hfirst, by omega⟩
            · exact Or.inl (hstart (hserved.data (hserved.subset hh)))
            rintro res u ⟨hu, hhole, hsame, hdata, hok⟩
            refine spec_ite (fun hres => ?_) fun hres => ?_
            · have hmerged : sc.D →
                  Merged rt.flags bytes W slices lo (seg.offset + seg.buf.length)
                    (res.2.append seg) := by
                intro hd
                obtain ⟨hdvd, data, heq, hseg⟩ := hdata hd hres
                obtain ⟨⟨_, _, _, hnot, hcut, _⟩, hmerged⟩ := hD hd
                -- the read is shorter than the block, so that it cannot come back empty
                have hseg' := hseg.resolve_right fun hshort => by
                  have hdvd' : rt.flags.sliceSize ∣ u32 (seg.offset - p.cursor) :=
                    (Nat.dvd_add_right hdvd).mp ((hsize hd).symm ▸ hstart hd)
                  rw [alignedSize_of_dvd (sc.data hd) hdvd'] at hshort
                  have hblock := (sc.data hd).toGeometry.block_le
                  have := (hready.content hd).1
                  have := hbefore hd
                  have := hhi hd
                  have := hsize hd
                  omega
                have happend := (hmerged.gap hseg' (by
                  rw [hsize hd]
                  exact Or.inl (Or.inl (hstart hd))) (by
                  rw [hsize hd]
                  exact hnot hdvd)).append (hsize hd) hcut
                rw [heq]
                exact ⟨happend.cursor, happend.le, happend.buf, happend.segments, happend.behind,
                  happend.hole⟩
              have hdone := hrest hu hmerged (fun h => by
                rw [hdisk] at h
                cases h) fun hd hall => by
                  obtain ⟨⟨k, hk⟩, _⟩ := hdata hd hres
                  rw [Nat.mul_comm] at hk
                  have := hbefore hd
                  exact absurd (hall k (Nat.le_of_eq hk) (by omega)) (hgap hd k hk.symm)
              rwa [hdisk] at hdone
            · have hsame' := hsame.resolve_left hres
              exact ⟨hu, fun _ => by rw [hsame'], fun _ _ => by rw [hsame'],
                fun _ h => absurd h hres, fun hh => absurd (hok hh) hres⟩
      · refine hrest .refl (fun hd => ?_) (fun _ => rfl) fun _ _ => rfl
        have hge' : ¬ c < seg.offset := fun h => hge ((hcursor hd).mpr h)
        obtain ⟨⟨hle, _, _, _, hcut, _⟩, hmerged⟩ := hD hd
        exact hmerged.append (by omega) hcut

/-- What a read of the range under the lock has brought. -/
structure LockedRead (sc : Scenario rt.toPlatform) (H : Prop) (bytes : IOBuf) (W : Nat → Prop)
    (disk : Option BlockId) (slices : List (Option SegmentRef)) (lo size : Nat)
    (res : Status × ReadProgress) : Prop where
  memory : disk = none → res.2.diskSegments = []
  resident : sc.D → AllResident rt.flags slices lo (lo + size) → res.2.diskSegments = []
  data : sc.D → res.1.ok = true → size ≤ res.2.buf.length → res.2.holeExist = false →
    res.2.buf = (bytes.drop lo).take size ∧ Loaded rt.flags bytes W slices res.2.diskSegments
  full : H → res.1.ok = true ∧ res.2.holeExist = false ∧ size ≤ res.2.buf.length

/-- What is missing at the end is read from disk. -/
theorem readRest_spec (hinv : Inv sc ⟨s, g⟩) (cacheId : CacheId) {size : Nat}
    (hready : DiskReady sc s bytes disk) {p q : ReadProgress} {st : Status} (hst : st.ok = true)
    (hq : q.diskSegments = []) (hserved : Served sc T H disk slices lo (lo + size))
    (hrange : sc.D → PartRange rt.flags bytes W lo (lo + size))
    (hends : H → rt.flags.sliceSize ∣ lo + size ∨ lo + size = bytes.length)
    (hmerge : MergeDone sc H bytes W disk slices lo lo (lo + size) q (st, p)) :
    Spec T (readRest rt cacheId disk size p) (fun res t => Looked sc s g t ∧
      LockedRead sc H bytes W disk slices lo size res) s := by
  have hD : sc.D → (p.holeExist = true ∧ disk = none) ∨ ∃ c,
      Merged rt.flags bytes W slices lo c p ∧ c ≤ lo + size ∧
      (H → rt.flags.sliceSize ∣ c ∨ c = lo + size) ∧
      (rt.flags.sliceSize ∣ c → Gap rt.flags slices c (lo + size)) :=
    fun hd => hmerge.merged hd hst
  have hmemory : disk = none → p.diskSegments = [] := fun h => (hmerge.memory h).trans hq
  have hresident : sc.D → AllResident rt.flags slices lo (lo + size) → p.diskSegments = [] :=
    fun hd h => (hmerge.resident hd h).trans hq
  have hlength : ∀ {c q}, sc.D → Merged rt.flags bytes W slices lo c q → c ≤ lo + size →
      q.buf.length = c - lo := by
    intro c q hd hq hc
    have := (hrange hd).le
    rw [hq.buf, List.length_take, List.length_drop]
    omega
  -- a range that has been read to its end
  have hdone : ∀ {q}, sc.D → Merged rt.flags bytes W slices lo (lo + size) q →
      q.buf = (bytes.drop lo).take size ∧ Loaded rt.flags bytes W slices q.diskSegments := by
    intro q _ hq
    refine ⟨?_, hq.segments⟩
    rw [hq.buf, Nat.add_sub_cancel_left]
  have hend : sc.D → size ≤ p.buf.length → p.holeExist = false →
      Merged rt.flags bytes W slices lo (lo + size) p := by
    intro hd hsize hhole
    rcases hD hd with ⟨h, _⟩ | ⟨c, hmerged, hc, _⟩
    · rw [hhole] at h
      cases h
    · have := hlength hd hmerged hc
      have := hmerged.le
      obtain rfl : c = lo + size := by omega
      exact hmerged
  -- where something is missing the buffer ends
  have hcursor : sc.D → p.holeExist = false ∨ disk ≠ none → p.buf.length < size →
      Merged rt.flags bytes W slices lo (lo + p.buf.length) p ∧
        (H → rt.flags.sliceSize ∣ lo + p.buf.length) ∧
        (rt.flags.sliceSize ∣ lo + p.buf.length →
          Gap rt.flags slices (lo + p.buf.length) (lo + size)) := by
    intro hd hwhole hshort
    rcases hD hd with ⟨h, hnone⟩ | ⟨c, hmerged, hc, haligned, hgap⟩
    · rcases hwhole with hhole | hdisk
      · rw [hhole] at h
        cases h
      · exact absurd hnone hdisk
    · have hlen := hlength hd hmerged hc
      have hle := hmerged.le
      have hcut : lo + p.buf.length = c := by omega
      rw [hcut]
      exact ⟨hmerged, fun hh => (haligned hh).resolve_right (by omega), hgap⟩
  cases disk with
  | none =>
      refine ⟨.refl, hmemory, hresident, fun hd _ hsize hhole => hdone hd (hend hd hsize hhole),
        fun hh => ?_⟩
      have hhole := (hmerge.full hh).2
      refine ⟨rfl, hhole, ?_⟩
      by_contra hshort
      dsimp only at hshort
      have hd := hserved.data (hserved.subset hh)
      obtain ⟨_, haligned, hnot⟩ := hcursor hd (Or.inl hhole) (Nat.not_le.mp hshort)
      obtain ⟨_, _, hdisk⟩ := (hserved.mono (c := lo + p.buf.length) fun _ =>
        Nat.le_add_right _ _).gap (fun _ => by omega) (fun _ k hk => hnot (haligned hh) k
          (Nat.le_of_eq hk.symm) (by omega)) haligned
      exact hdisk hh rfl
  | some id =>
      refine spec_ite (fun hshort => ?_) fun hlong => ?_
      · have hat := fun hd => hcursor hd (Or.inr (Option.some_ne_none id)) hshort
        have haligned : H → rt.flags.sliceSize ∣ lo + p.buf.length := fun hh =>
          (hat (hserved.data (hserved.subset hh))).2.1 hh
        have hnot : sc.D → ∀ k, k * rt.flags.sliceSize = lo + p.buf.length →
            ¬ Resident slices k := fun hd k hk =>
          (hat hd).2.2 (hk ▸ Nat.dvd_mul_left _ _) k (Nat.le_of_eq hk.symm) (by omega)
        obtain ⟨hT, hreads, _⟩ := (hserved.mono (c := lo + p.buf.length) fun _ =>
          Nat.le_add_right _ _).gap (fun _ => by omega) hnot haligned
        have hsize : sc.D → lo + p.buf.length + u32 (size - p.buf.length) = lo + size := by
          intro hd
          have hblock := (sc.data hd).toGeometry.block_le
          have := (hready.content hd).1
          have := (hrange hd).le
          rw [← Int.ofNat_sub hshort.le, u32_of_lt (by omega)]
          omega
        refine (readGap_spec hinv cacheId hready p hT hreads (fun hd => (hat hd).1.cursor) hsize
          (fun hd => ⟨by omega, (hrange hd).le⟩) haligned hends).mono ?_
        rintro res t ⟨ht, hhole, hsame, hdata, hok⟩
        have hgood : ∀ {data}, sc.D → rt.flags.sliceSize ∣ lo + p.buf.length →
            SegmentPart rt.flags bytes ⟨lo + p.buf.length, u32 (size - p.buf.length), data⟩ →
            res.2 = { p with
              buf := p.buf ++ data.take (u32 (size - p.buf.length))
              diskSegments := p.diskSegments ++
                [⟨lo + p.buf.length, u32 (size - p.buf.length), data⟩] } →
            res.2.buf = (bytes.drop lo).take size ∧
              Loaded rt.flags bytes W slices res.2.diskSegments := by
          intro data hd hdvd hseg heq
          have hgap := (hat hd).1.gap hseg (by
            rw [hsize hd]
            exact (hrange hd).ends) (by
            rw [hsize hd]
            exact (hat hd).2.2 hdvd)
          rw [hsize hd] at hgap
          have hresult := hdone hd hgap
          rw [heq]
          exact hresult
        refine ⟨ht, (fun h => by cases h), fun hd hall => ?_, fun hd hres hlong _ => ?_,
          fun hh => ?_⟩
        · rcases hsame with hres | hsame
          · obtain ⟨⟨k, hk⟩, _⟩ := hdata hd hres
            rw [Nat.mul_comm] at hk
            exact absurd (hall k (by omega) (by omega)) (hnot hd k hk.symm)
          · rw [hsame]
            exact hresident hd hall
        · obtain ⟨hdvd, data, heq, hseg | ⟨rfl, _⟩⟩ := hdata hd hres
          · exact hgood hd hdvd hseg heq
          · rw [heq] at hlong
            simp at hlong
            omega
        · have hd := hserved.data (hserved.subset hh)
          refine ⟨hok hh, hhole.trans (hmerge.full hh).2, ?_⟩
          obtain ⟨hdvd, data, heq, hseg | ⟨_, hlarge⟩⟩ := hdata hd (hok hh)
          · rw [(hgood hd hdvd hseg heq).1, List.length_take, List.length_drop]
            have := (hrange hd).le
            omega
          · have hfit : lo + p.buf.length + u32 (size - p.buf.length) ≤ rt.flags.blockSize := by
              have := hsize hd
              have := (hrange hd).le
              have := (hready.content hd).1
              omega
            have hle := alignedSize_le (sc.data hd) hdvd hfit
            have := (hreads hh).2.2.block_lt
            omega
      · rw [spec_pure]
        refine ⟨.refl, hmemory, hresident, fun hd _ hsize hhole => hdone hd (hend hd hsize hhole),
          fun hh => ?_⟩
        exact ⟨rfl, (hmerge.full hh).2, Nat.not_lt.mp hlong⟩

/-- A range of a block is read as a whole, or it is seen that part of it is missing. -/
theorem readPart_spec (hinv : Inv sc ⟨s, g⟩) (b : BlockItem) {offset : Int}
    {size : Nat} (hoffset : sc.D → offset = lo)
    (hready : DiskReady sc s bytes b.diskBlockItem)
    (hserved : Served sc T H b.diskBlockItem b.slices lo (lo + size))
    (hD : sc.D → PartRange rt.flags bytes W lo (lo + size) ∧ ∀ block, b.memBlockItem = some block →
      SlicesOk rt.flags bytes W s.segments block.slices)
    (hH : H → SliceRange rt.flags bytes lo (lo + size) ∧
      ∀ k, lo ≤ k * rt.flags.sliceSize → k * rt.flags.sliceSize < lo + size → W k) :
    Spec T (readLocked rt key b offset size) (fun res t => Looked sc s g t ∧
      LockedRead sc H bytes W b.diskBlockItem b.slices lo size res) s := by
  have hstart : sc.D → Merged rt.flags bytes W b.slices lo lo { cursor := offset } := fun hd =>
    ⟨hoffset hd, Nat.le_refl _, by simp, ⟨fun _ h => (by cases h), List.Pairwise.nil,
      fun _ h => (by cases h), fun _ h => (by cases h)⟩, fun _ h => (by cases h), rfl⟩
  unfold readLocked
  rw [spec_bind]
  refine (memReadBlock_spec (w := H) (W := W) bytes hinv hserved.data key b hoffset (fun hd => ?_)
    fun hh k hk => ?_).mono ?_
  · obtain ⟨hrange, hslices⟩ := hD hd
    have := hrange.lt
    exact ⟨by omega, hrange.le, (hready.content hd).1, hslices⟩
  · obtain ⟨⟨m, hm⟩, _⟩ := (hH hh).1
    apply (hH hh).2 k
    rw [hm, Nat.mul_div_cancel_left m rt.flags.sliceSize_pos] at hk
    rw [hm, Nat.mul_comm]
    exact Nat.mul_le_mul_right _ hk
  rintro segs u ⟨hu, hpieces⟩
  rw [spec_bind]
  refine (mergeSegments_spec key.cacheId (fun hd => (hD hd).1.le) segs lo (hu.ran.inv hinv)
    (hready.looked hu) hserved (fun hh => Or.inl (hH hh).1.aligned)
    fun hd => ⟨hpieces hd, hstart hd⟩).mono ?_
  rintro ⟨st, p⟩ v ⟨hv, hmerge⟩
  have hlooked := hu.trans hv
  refine spec_ite (fun hres => ?_) fun hres => ?_
  · refine (readRest_spec (hlooked.ran.inv hinv) key.cacheId (hready.looked hlooked) hres rfl hserved
      (fun hd => (hD hd).1) (fun hh => (hH hh).1.ends) hmerge).mono ?_
    rintro res t ⟨ht, hdone⟩
    exact ⟨hlooked.trans ht, hdone⟩
  · rw [spec_pure]
    exact ⟨hlooked, hmerge.memory, hmerge.resident, fun _ h => absurd h hres,
      fun hh => absurd (hmerge.full hh).1 hres⟩

/-- A range that is empty, or that ends before it begins: it results from a request whose end
wraps around. -/
def VoidRange (flags : Flags) (lo size : Nat) : Prop :=
  lo < flags.blockSize ∧ (size = 0 ∨ 8589934592 ≤ size ∧
    off2slice flags ((lo : Int) + size - 1) ≤ off2slice flags lo)

/-- Such a range is not read, unless it is empty. -/
theorem readVoid_spec (hinv : Inv sc ⟨s, g⟩) (hd : sc.D) (hT : ¬ T) (hH : ¬ H) (b : BlockItem)
    {size : Nat} (hslices : ∀ block, b.memBlockItem = some block →
      SlicesOk rt.flags bytes W s.segments block.slices) (hvoid : VoidRange rt.flags lo size) :
    Spec T (readLocked rt key b lo size) (fun res t => Looked sc s g t ∧
      LockedRead sc H bytes W b.diskBlockItem b.slices lo size res) s := by
  obtain ⟨hlo, hvoid⟩ := hvoid
  have hgeo := (sc.data hd).toGeometry
  have hblock := hgeo.block_le
  have hnot : size ≠ 0 → ¬ AllResident rt.flags b.slices lo (lo + size) := by
    intro hne hall
    obtain ⟨g', hg'⟩ := hall (rt.flags.blockSize / rt.flags.sliceSize)
      (by rw [Nat.div_mul_cancel hgeo.slice_dvd]; omega)
      (by rw [Nat.div_mul_cancel hgeo.slice_dvd]; omega)
    unfold BlockItem.slices at hg'
    cases hmem : b.memBlockItem with
    | none =>
        rw [hmem] at hg'
        simp at hg'
    | some block =>
        rw [hmem] at hg'
        have hlt : rt.flags.blockSize / rt.flags.sliceSize < block.slices.length :=
          (List.getElem?_eq_some_iff.mp hg').1
        rw [(hslices block hmem).length] at hlt
        exact Nat.lt_irrefl _ hlt
  -- what is too short for the range
  have hshort : ∀ {res : Status × ReadProgress}, (b.diskBlockItem = none → res.2.diskSegments = []) →
      size ≠ 0 → (res.1.ok = true → res.2.buf.length < size) →
        LockedRead sc H bytes W b.diskBlockItem b.slices lo size res := by
    intro res hmemory hne hlen
    refine ⟨hmemory, fun _ hall => absurd hall (hnot hne), fun _ hok hlong => ?_,
      fun hh => absurd hh hH⟩
    exact absurd (hlen hok) (Nat.not_lt.mpr hlong)
  unfold readLocked
  rw [spec_bind]
  refine (memRead_looked hinv key b fun ht => absurd ht hT).mono ?_
  rintro segs u ⟨hu, hsegs⟩
  have hinvu := hu.ran.inv hinv
  by_cases hzero : size = 0
  · -- nothing is missing in an empty range
    subst hzero
    have hnil : segs = [] := by
      rcases hsegs with ⟨_, hsegs⟩ | ⟨_, _, hne, _⟩
      · exact hsegs
      · exact absurd rfl hne
    have hdone : LockedRead sc H bytes W b.diskBlockItem b.slices lo 0
        (.OK, { cursor := lo }) := by
      refine ⟨fun _ => rfl, fun _ _ => rfl, fun _ _ _ _ => ⟨rfl, ?_⟩, fun hh => absurd hh hH⟩
      exact ⟨fun _ h => (by cases h), List.Pairwise.nil, fun _ h => (by cases h),
        fun _ h => (by cases h)⟩
    rw [hnil]
    unfold mergeSegments readRest
    rw [spec_bind, spec_pure]
    refine spec_ite (fun _ => ?_) fun h => absurd rfl h
    cases hdisk : b.diskBlockItem with
    | none => exact ⟨hu, hdisk ▸ hdone⟩
    | some id =>
        refine spec_ite (fun h => absurd h (Nat.not_lt_zero _)) fun _ => ?_
        exact ⟨hu, hdisk ▸ hdone⟩
  obtain ⟨hlarge, hback⟩ := hvoid.resolve_left hzero
  have hone : segs = [] ∨ ∃ seg, segs = [seg] ∧ seg.offset = lo ∧
      seg.buf.length ≤ rt.flags.blockSize := by
    rcases hsegs with ⟨_, rfl⟩ | ⟨block, hmem, _, hread⟩
    · exact Or.inl rfl
    · have := readSegments_back (hslices block hmem) hback hread
      rwa [u32_of_lt (by omega)] at this
  have hmerge : ∃ p : ReadProgress, mergeSegments rt key.cacheId b.diskBlockItem segs
      { cursor := lo } = pure (.OK, p) ∧ p.diskSegments = [] ∧
        p.buf.length ≤ rt.flags.blockSize := by
    rcases hone with rfl | ⟨seg, rfl, hoffset, hlen⟩
    · exact ⟨_, rfl, rfl, Nat.zero_le _⟩
    · refine ⟨ReadProgress.append { cursor := lo } seg, ?_, rfl, hlen⟩
      unfold mergeSegments mergeSegments
      rw [if_neg]
      rw [hoffset]
      exact Int.lt_irrefl _
  obtain ⟨p, hp, hnone, hlen⟩ := hmerge
  rw [hp, spec_bind, spec_pure]
  refine spec_ite (fun _ => ?_) fun h => absurd rfl h
  dsimp only
  unfold readRest
  cases hdisk : b.diskBlockItem with
  | none => exact ⟨hu, hdisk ▸ hshort (fun _ => hnone) hzero fun _ => by dsimp only; omega⟩
  | some id =>
      refine spec_ite (fun _ => ?_) fun hlong => absurd (Nat.not_lt.mp hlong) (by omega)
      refine (readGap_length hinvu key.cacheId id p _ hT).mono ?_
      rintro res t ⟨ht, hlength⟩
      have hsmall : u32 (size - p.buf.length) < 4294967296 := u32_lt _
      exact ⟨hu.trans ht, hdisk ▸ hshort (fun h => (by rw [hdisk] at h; cases h)) hzero
        fun _ => by omega⟩

/-- `_read_block` under the shared lock: what is returned is the range that was asked for, or it
is seen that part of it is missing. -/
theorem readLocked_spec (hinv : Inv sc ⟨s, g⟩) (b : BlockItem) {offset : Int}
    {size : Nat} (hoffset : sc.D → offset = lo)
    (hready : DiskReady sc s bytes b.diskBlockItem)
    (hserved : Served sc T H b.diskBlockItem b.slices lo (lo + size))
    (hD : sc.D → (PartRange rt.flags bytes W lo (lo + size) ∨ VoidRange rt.flags lo size ∧ ¬ T) ∧
      ∀ block, b.memBlockItem = some block → SlicesOk rt.flags bytes W s.segments block.slices)
    (hH : H → SliceRange rt.flags bytes lo (lo + size) ∧
      ∀ k, lo ≤ k * rt.flags.sliceSize → k * rt.flags.sliceSize < lo + size → W k) :
    Spec T (readLocked rt key b offset size) (fun res t => Looked sc s g t ∧
      LockedRead sc H bytes W b.diskBlockItem b.slices lo size res) s := by
  by_cases hvoid : sc.D ∧ VoidRange rt.flags lo size ∧ ¬ T
  · obtain ⟨hd, hvoid, hT⟩ := hvoid
    rw [hoffset hd]
    exact readVoid_spec hinv hd hT (fun hh => hT (hserved.subset hh)) b (hD hd).2 hvoid
  · exact readPart_spec hinv b hoffset hready hserved
      (fun hd => ⟨(hD hd).1.resolve_right fun h => hvoid ⟨hd, h⟩, (hD hd).2⟩) hH

/-! ## One block -/

theorem holdAll_spec {s₀ : State} {T : Prop} : ∀ (xs : List Local) {s : State},
    Ran sc Action.InRead s₀ g s g → (∀ x ∈ xs, s.Alive x) →
    Spec T (forEach xs hold) (fun _ t => Ran sc Action.InRead s₀ g t g ∧
      t = { s with locals := t.locals }) s
  | [], s, hran, _ => ⟨hran, rfl⟩
  | x :: rest, s, hran, halive => by
      unfold forEach
      rw [spec_bind]
      refine (hold_spec hran (halive x List.mem_cons_self)).mono ?_
      rintro _ u ⟨hu, hueq⟩
      refine (holdAll_spec rest hu fun y hy => ?_).mono ?_
      · have := halive y (List.mem_cons_of_mem _ hy)
        rw [hueq]
        cases y with
        | _ => exact this
      · rintro _ t ⟨ht, hteq⟩
        exact ⟨ht, by rw [hteq, hueq]⟩

/-- `_read_block`: what it returns is what the object holds there; with all slices of
the range at hand it does return, and when they are all in memory no item is touched. -/
theorem readBlock_spec (hinv : Inv sc ⟨s, g⟩) (hheld : .item r ∈ s.locals)
    (hid : s.idOf rt.toPlatform r = key.cacheId) (options : Option ReadOptions) {offset : Int}
    {size : Nat} (hoffset : sc.D → offset = lo) (hblock : T → ∃ b, s.HasBlock r key.blockIndex b)
    (hserved : ∀ b, s.HasBlock r key.blockIndex b →
      Served sc T H b.diskBlockItem b.slices lo (lo + size))
    (hD : sc.D → PartRange rt.flags (blockPart rt.flags (sc.val r) key.blockIndex)
        (sc.whole r key.blockIndex) lo (lo + size) ∨ VoidRange rt.flags lo size ∧ ¬ T)
    (hH : H → SliceRange rt.flags (blockPart rt.flags (sc.val r) key.blockIndex) lo (lo + size) ∧
      ∀ k, lo ≤ k * rt.flags.sliceSize → k * rt.flags.sliceSize < lo + size →
        sc.whole r key.blockIndex k) :
    Spec T (readBlock rt r key offset size options) (fun res t => Ran sc Action.InRead s g t g ∧
      (sc.D → res.1.ok = true →
        res.2 = ((blockPart rt.flags (sc.val r) key.blockIndex).drop lo).take size) ∧
      (sc.D → rt.promotionPolicy.Refuses options ∨ (∀ b, s.HasBlock r key.blockIndex b →
        AllResident rt.flags b.slices lo (lo + size)) →
          t.items = s.items ∧ t.accessIndex = s.accessIndex) ∧
      (H → res.1.ok = true)) s := by
  have hstart : Ran sc Action.InRead s g s g := .refl trivial
  have hlive : r ∈ s.liveItems := hinv.wf.local_alive hheld
  unfold readBlock
  refine (scope_spec hstart (fun _ => g) (fun res u => (sc.D → res.1.ok = true →
    res.2 = ((blockPart rt.flags (sc.val r) key.blockIndex).drop lo).take size) ∧
      (sc.D → rt.promotionPolicy.Refuses options ∨ (∀ b, s.HasBlock r key.blockIndex b →
        AllResident rt.flags b.slices lo (lo + size)) →
          u.items = s.items ∧ u.accessIndex = s.accessIndex) ∧
      (H → res.1.ok = true)) hinv ?_).mono ?_
  swap
  · rintro res t ⟨ht, _, _, u, hres, heffect⟩
    rw [heffect.eq]
    exact ⟨heffect.eq ▸ ht, hres⟩
  rw [spec_bind]
  refine (lock_spec hstart false key).mono ?_
  rintro _ u ⟨hu, hueq⟩
  have hinvu := hu.inv hinv
  have hliveu : r ∈ u.liveItems := by
    rw [hueq]
    exact hlive
  rw [spec_bind]
  refine getBlock_spec (fun hT' => ?_) fun b hb => ?_
  · obtain ⟨b, hb⟩ := hblock hT'
    rw [hueq]
    exact (List.getElem?_eq_some_iff.mp hb).1
  rw [spec_bind]
  refine (holdAll_spec _ hu fun x hx => ?_).mono ?_
  · rw [List.mem_append, List.mem_map, List.mem_map] at hx
    rcases hx with ⟨block, hblock, rfl⟩ | ⟨id, hid', rfl⟩
    · exact hinvu.wf.mem_alive hliveu hb (Option.mem_toList.mp hblock)
    · exact hinvu.wf.disk_live hliveu hb (Option.mem_toList.mp hid')
  rintro _ v ⟨hranv, hveq⟩
  have hinvv := hranv.inv hinv
  have hvs : v = { s with locals := v.locals, locks := v.locks } := by rw [hveq, hueq]
  have hlivev : r ∈ v.liveItems := by
    rw [hvs]
    exact hlive
  have hbv : v.HasBlock r key.blockIndex b := by
    rw [hveq]
    exact hb
  have hbs : s.HasBlock r key.blockIndex b := by
    rw [hueq] at hb
    exact hb
  rw [spec_bind]
  refine (readLocked_spec hinvv b hoffset ⟨fun hd => ⟨length_blockPart_le _ _ _, fun id hdisk => ?_⟩,
    fun id hdisk => hinvv.wf.disk_live hlivev hbv hdisk⟩ (hserved b hbs)
    (fun hd => ⟨hD hd, fun block hmem => ?_⟩) hH).mono ?_
  · exact (hinvv.content hd r hlivev).disk _ b id hbv hdisk
  · exact ((hinvv.content hd r hlivev).mem _ b block hbv hmem).slices.mono fun _ _ _ h =>
      Or.inl (Or.inl h)
  rintro res w ⟨hw, hnone, hresident, hdata, hok⟩
  have hranw := hranv.trans hw.ran
  rw [spec_bind]
  refine (unlock_spec hranw false key).mono ?_
  rintro _ x ⟨hx, hxeq⟩
  have hsame : x.items = s.items ∧ x.accessIndex = s.accessIndex := by
    rw [hxeq, hw.eq, hvs]
    exact ⟨rfl, rfl⟩
  dsimp only
  refine spec_ite (fun hfail => ?_) fun hres => ?_
  · rw [spec_pure]
    refine ⟨hx, fun _ h => ?_, fun _ _ => hsame, fun hh => ?_⟩
    · rw [h] at hfail
      cases hfail
    · rw [(hok hh).1] at hfail
      cases hfail
  have hres' : res.1.ok = true := by simpa using hres
  refine spec_ite (fun hmissing => ?_) fun hwhole => ?_
  · rw [spec_pure]
    refine ⟨hx, nofun, fun _ _ => hsame, fun hh => ?_⟩
    · obtain ⟨_, hhole, hlong⟩ := hok hh
      rcases hmissing with h | h
      · omega
      · rw [hhole] at h
        cases h
  rw [not_or] at hwhole
  have hlong : size ≤ res.2.buf.length := Nat.not_lt.mp hwhole.1
  have hhole : res.2.holeExist = false := by simpa using hwhole.2
  rw [spec_bind]
  refine (tick_spec hx).mono ?_
  rintro n y ⟨hy, _, hyeq⟩
  have hitems : y.items = s.items ∧ y.accessIndex = s.accessIndex := by
    rw [hyeq]
    exact hsame
  rw [spec_bind, spec_read, spec_bind]
  refine spec_when (fun hpromote => ?_) fun _ => ?_
  · have hne : res.2.diskSegments ≠ [] := by
      intro h
      rw [h] at hpromote
      cases hpromote
    have haccepts : ¬ rt.promotionPolicy.Refuses options := by
      intro h
      rw [h, Bool.and_false] at hpromote
      cases hpromote
    have hmissing : sc.D → ¬ AllResident rt.flags b.slices lo (lo + size) := fun hd hall =>
      hne (hresident hd hall)
    -- something has come from disk, so that disk access is accounted for
    have hT : T → sc.T := by
      intro ht
      by_contra hno
      exact hmissing ((hserved b hbs).data ht) fun k hlow hhigh =>
        ((hserved b hbs).defined ht k hlow hhigh).resolve_left hno
    have hby : y.HasBlock r key.blockIndex b := by
      unfold State.HasBlock
      rw [hitems.1]
      exact hbs
    refine ((promoteBlockSegments_spec (hy.inv hinv) ⟨hy.locals _ hheld, ?_, ⟨b, hby, fun h =>
      hne (hnone h)⟩, fun hd b' hb' => ?_⟩).weaken hT).mono ?_
    · unfold State.idOf
      rw [hitems.1]
      exact hid
    · obtain rfl : b' = b := Option.some.inj (hb'.symm.trans hby)
      exact (hdata hd hres' hlong hhole).2
    rintro _ z hz
    rw [spec_pure]
    exact ⟨hy.trans hz, fun hd _ => (hdata hd hres' hlong hhole).1,
      fun hd hall => (hall.elim haccepts fun hall => hmissing hd (hall b hbs)).elim, fun _ => rfl⟩
  · rw [spec_pure]
    exact ⟨hy, fun hd _ => (hdata hd hres' hlong hhole).1, fun _ _ => hitems, fun _ => rfl⟩

end StarCacheImpl

end StarCache
