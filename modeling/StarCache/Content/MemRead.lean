import StarCache.Content.Slices

/-!
# Reading a block from memory

`MemCache::read_block` cuts the range where the slice pointer changes. The cuts hold
the bytes of the block, and what lies between them is not in memory. A cut from a
segment that ends inside a slice ends there; when there is no such segment, the cuts
tile the range.
-/

namespace StarCache

open MachineInt

variable (flags : Flags) (bytes : IOBuf) (slices : List (Option SegmentRef))

/-- No slice that starts between `lo` and `hi` is in memory. -/
def Gap (lo hi : Nat) : Prop :=
  ∀ k, lo ≤ k * flags.sliceSize → k * flags.sliceSize < hi → ¬ Resident slices k

/-- A slice map whose segments begin with the bytes of the slices they stand for, and hold all of
those in `W`; what they hold otherwise does not matter. -/
structure SlicesHold (W : Nat → Prop) (segments : SegmentRef → BlockSegment) : Prop where
  length : slices.length = flags.blockSize / flags.sliceSize
  start : ∀ k g, slices[k]? = some (some g) → (segments g).offset ≤ k * flags.sliceSize
  reach : ∀ k g, slices[k]? = some (some g) → k * flags.sliceSize < bytes.length →
    k * flags.sliceSize < (segments g).offset + (segments g).buf.length
  content : ∀ k g, slices[k]? = some (some g) → ∀ p, k * flags.sliceSize ≤ p →
    p < (k + 1) * flags.sliceSize → p < bytes.length →
      p < (segments g).offset + (segments g).buf.length →
        (segments g).buf[p - (segments g).offset]? = bytes[p]?
  filled : ∀ k g, slices[k]? = some (some g) → W k → ∀ p, k * flags.sliceSize ≤ p →
    p < (k + 1) * flags.sliceSize → p < bytes.length →
      p < (segments g).offset + (segments g).buf.length

/-- Every slice that starts in the cut is in memory. -/
def InMemory (seg : BlockSegment) : Prop :=
  ∀ k, seg.offset ≤ k * flags.sliceSize → k * flags.sliceSize < seg.offset + seg.buf.length →
    Resident slices k

/-- A cut of the block. -/
structure IsCut (seg : BlockSegment) : Prop where
  aligned : flags.sliceSize ∣ seg.offset
  pos : 0 < seg.buf.length
  content : seg.buf = (bytes.drop seg.offset).take seg.buf.length

/-- The cuts lie in order between `lo` and `hi`. What follows one that ends on a slice boundary is
not in memory up to the next one; under `w` they all do. -/
def Pieces (w : Prop) : Nat → List BlockSegment → Nat → Prop
  | lo, [], hi => lo ≤ hi ∧ (flags.sliceSize ∣ lo → Gap flags slices lo hi)
  | lo, seg :: rest, hi =>
      lo ≤ seg.offset ∧ seg.offset < hi ∧ (lo < seg.offset → flags.sliceSize ∣ seg.offset) ∧
        (flags.sliceSize ∣ lo → Gap flags slices lo seg.offset) ∧
        seg.buf = (bytes.drop seg.offset).take seg.buf.length ∧
        (w → 0 < seg.buf.length ∧
          (flags.sliceSize ∣ seg.offset + seg.buf.length ∨ seg.offset + seg.buf.length = hi)) ∧
        Pieces w (seg.offset + seg.buf.length) rest hi

/-- The cuts lie in order between `lo` and `hi`, with gaps between them. -/
def Tiles : Nat → List BlockSegment → Nat → Prop
  | lo, [], hi => lo ≤ hi ∧ Gap flags slices lo hi
  | lo, seg :: rest, hi =>
      lo ≤ seg.offset ∧ Gap flags slices lo seg.offset ∧ IsCut flags bytes seg ∧
        (flags.sliceSize ∣ seg.offset + seg.buf.length ∨ seg.offset + seg.buf.length = hi) ∧
        Tiles (seg.offset + seg.buf.length) rest hi

variable {flags bytes slices}

theorem Tiles.le : ∀ {segs : List BlockSegment} {lo hi : Nat},
    Tiles flags bytes slices lo segs hi → lo ≤ hi
  | [], _, _, h => h.1
  | seg :: rest, lo, hi, h => by
      obtain ⟨hle, _, _, _, hrest⟩ := h
      have := Tiles.le hrest
      omega

theorem Gap.trans {lo mid hi : Nat} (h : Gap flags slices lo mid) (h' : Gap flags slices mid hi) :
    Gap flags slices lo hi := by
  intro k hlo hhi
  by_cases hk : k * flags.sliceSize < mid
  · exact h k hlo hk
  · exact h' k (Nat.not_lt.mp hk) hhi

theorem Gap.empty {lo hi : Nat} (h : hi ≤ lo) : Gap flags slices lo hi :=
  fun k hlo hhi => absurd hhi (by omega)

section Pieces

variable {w : Prop}

theorem Pieces.le : ∀ {segs : List BlockSegment} {lo hi : Nat},
    Pieces flags bytes slices w lo segs hi → lo ≤ hi
  | [], _, _, h => h.1
  | seg :: rest, lo, hi, h => by
      obtain ⟨hle, _, _, _, _, _, hrest⟩ := h
      have := Pieces.le hrest
      omega

/-- Cuts up to a slice boundary, and slices behind it that are not in memory. -/
theorem Pieces.extend : ∀ {segs : List BlockSegment} {lo mid hi : Nat},
    Pieces flags bytes slices w lo segs mid → (flags.sliceSize ∣ mid ∨ mid = lo) → mid ≤ hi →
      (flags.sliceSize ∣ mid → Gap flags slices mid hi) → Pieces flags bytes slices w lo segs hi
  | [], lo, mid, hi, h, hmid, hle, hgap => by
      refine ⟨Nat.le_trans h.1 hle, fun hlo => ?_⟩
      have hdvd : flags.sliceSize ∣ mid := by
        rcases hmid with hmid | hmid
        · exact hmid
        · rwa [hmid]
      exact (h.2 hlo).trans (hgap hdvd)
  | seg :: rest, lo, mid, hi, ⟨hle, hlt, hal, hg, hbuf, hw, hrest⟩, hmid, hmh, hgap => by
      have hdvd : flags.sliceSize ∣ mid := hmid.resolve_right (by omega)
      refine ⟨hle, by omega, hal, hg, hbuf, fun hw' => ?_,
        hrest.extend (Or.inl hdvd) hmh hgap⟩
      obtain ⟨hpos, hend⟩ := hw hw'
      refine ⟨hpos, Or.inl ?_⟩
      rcases hend with hend | hend
      · exact hend
      · rwa [hend]

/-- The next cut, which may end before the place it was to reach. -/
theorem Pieces.snoc : ∀ {segs : List BlockSegment} {lo offset size hi : Nat} {buf : IOBuf},
    Pieces flags bytes slices w lo segs offset → (flags.sliceSize ∣ offset ∨ offset = lo) →
      offset < hi → offset + buf.length ≤ hi → buf = (bytes.drop offset).take buf.length →
      (w → offset + buf.length = hi) →
      (flags.sliceSize ∣ offset + buf.length → Gap flags slices (offset + buf.length) hi) →
        Pieces flags bytes slices w lo (segs ++ [⟨offset, size, buf⟩]) hi
  | [], lo, offset, size, hi, buf, h, hoff, hlt, hle, hbuf, hw, hgap => by
      refine ⟨h.1, hlt, fun hne => hoff.resolve_right (Nat.ne_of_gt hne), h.2, hbuf, fun hw' => ?_,
        hle, hgap⟩
      have := hw hw'
      dsimp only
      exact ⟨by omega, Or.inr this⟩
  | first :: rest, lo, offset, size, hi, buf, ⟨hle', hlt', hal, hg, hcut, hw', hrest⟩, hoff, hlt, hle,
    hbuf, hw, hgap => by
      have hdvd : flags.sliceSize ∣ offset := hoff.resolve_right (by omega)
      refine ⟨hle', by omega, hal, hg, hcut, fun hall => ?_,
        hrest.snoc (Or.inl hdvd) hlt hle hbuf hw hgap⟩
      obtain ⟨hpos, hend⟩ := hw' hall
      refine ⟨hpos, Or.inl ?_⟩
      rcases hend with hend | hend
      · exact hend
      · rwa [hend]

/-- Cuts that all end on slice boundaries tile the range. -/
theorem Pieces.tiles : ∀ {segs : List BlockSegment} {lo hi : Nat}, w →
    (flags.sliceSize ∣ lo ∨ lo = hi) → Pieces flags bytes slices w lo segs hi →
      Tiles flags bytes slices lo segs hi
  | [], lo, hi, _, hlo, h => by
      refine ⟨h.1, ?_⟩
      rcases hlo with hlo | rfl
      · exact h.2 hlo
      · exact .empty (Nat.le_refl _)
  | seg :: rest, lo, hi, hw, hlo, ⟨hle, hlt, hal, hg, hbuf, hends, hrest⟩ => by
      have hlo' := hlo.resolve_right (by omega)
      obtain ⟨hpos, hend⟩ := hends hw
      have haligned : flags.sliceSize ∣ seg.offset := by
        rcases Nat.lt_or_eq_of_le hle with hlt' | heq
        · exact hal hlt'
        · rwa [← heq]
      exact ⟨hle, hg hlo', ⟨haligned, hpos, hbuf⟩, hend, hrest.tiles hw hend⟩

end Pieces

section Loop

variable {W : Nat → Prop} {w : Prop} {segments : SegmentRef → BlockSegment}

theorem SlicesOk.holds (hok : SlicesOk flags bytes W segments slices) :
    SlicesHold flags bytes slices W segments := by
  refine ⟨hok.length, fun k g hg => (hok.segment k g hg).2.1.1, fun k g hg _ => ?_,
    fun k g hg p hlow _ hp hin => ?_, fun k g hg hk p _ hhigh hp => ?_⟩
  · obtain ⟨hseg, ⟨_, hstop⟩, _⟩ := hok.segment k g hg
    have := hseg.long
    omega
  · obtain ⟨hseg, ⟨hstart, _⟩, _⟩ := hok.segment k g hg
    rw [hseg.content _ (by omega) (by omega), Nat.add_sub_cancel' (by omega)]
  · have hlong := (hok.segment k g hg).1.long
    rcases hok.fills k g hg hk with hend | hend <;> omega

/-- A slice map whose segments hold all bytes of their slices. -/
theorem slicesHold_whole (hlength : slices.length = flags.blockSize / flags.sliceSize)
    (hstart : ∀ k g, slices[k]? = some (some g) → (segments g).offset ≤ k * flags.sliceSize)
    (hcontent : ∀ k g, slices[k]? = some (some g) → ∀ p, k * flags.sliceSize ≤ p →
      p < (k + 1) * flags.sliceSize → p < bytes.length →
        (segments g).buf[p - (segments g).offset]? = bytes[p]?) :
    SlicesHold flags bytes slices (fun _ => True) segments := by
  have hreach : ∀ k g, slices[k]? = some (some g) → ∀ p, k * flags.sliceSize ≤ p →
      p < (k + 1) * flags.sliceSize → p < bytes.length →
        p < (segments g).offset + (segments g).buf.length := by
    intro k g hg p hlow hhigh hp
    have hbyte := hcontent k g hg p hlow hhigh hp
    rw [List.getElem?_eq_getElem hp] at hbyte
    have := (List.getElem?_eq_some_iff.mp hbyte).1
    have := hstart k g hg
    omega
  refine ⟨hlength, hstart, fun k g hg hk => ?_,
    fun k g hg p hlow hhigh hp _ => hcontent k g hg p hlow hhigh hp, fun k g hg _ => hreach k g hg⟩
  apply hreach k g hg _ (Nat.le_refl _) _ hk
  rw [Nat.add_mul, Nat.one_mul]
  exact Nat.lt_add_of_pos_right flags.sliceSize_pos

/-- The state of the loop before slice `k`: the current segment owns the slices
from `first` on, and what lies before the cursor `off` has been cut. -/
structure LoopInv (flags : Flags) (bytes : IOBuf) (slices : List (Option SegmentRef)) (w : Prop)
    (lo hi k : Nat) (c : MemCache.Cursor) (first off : Nat) : Prop where
  lt : first < k
  low : first * flags.sliceSize ≤ off
  high : off < (first + 1) * flags.sliceSize
  origin : off = first * flags.sliceSize ∨ off = lo
  segmentOff : c.segmentOff = off
  run : ∀ j, first ≤ j → j < k → slices[j]? = some c.curSegment
  size : c.size = hi - off
  pieces : Pieces flags bytes slices w lo c.segments off

theorem LoopInv.aligned {lo hi k first off : Nat} {c : MemCache.Cursor}
    (hinv : LoopInv flags bytes slices w lo hi k c first off) :
    flags.sliceSize ∣ off ∨ off = lo := by
  refine hinv.origin.imp_left fun h => ?_
  rw [h]
  exact Nat.dvd_mul_left _ _

theorem LoopInv.lt_mul {lo hi k first off : Nat} {c : MemCache.Cursor}
    (hinv : LoopInv flags bytes slices w lo hi k c first off) : off < k * flags.sliceSize :=
  Nat.lt_of_lt_of_le hinv.high (Nat.mul_le_mul_right _ hinv.lt)

/-- The part of a segment that a cut of `length` bytes at `off` takes from it. -/
theorem SlicesHold.appendTo (hok : SlicesHold flags bytes slices W segments) {g : SegmentRef}
    {off length : Nat} (hfit : off + length ≤ bytes.length) (hstart : (segments g).offset ≤ off)
    (hrun : ∀ p, off ≤ p → p < off + length → slices[p / flags.sliceSize]? = some (some g)) :
    IOBuf.appendTo (segments g).buf length (off - (segments g).offset) =
      (bytes.drop off).take (min length ((segments g).offset + (segments g).buf.length - off)) := by
  unfold IOBuf.appendTo
  apply List.ext_getElem?
  intro p
  rw [List.getElem?_take, List.getElem?_take]
  by_cases hp : p < length
  · rw [if_pos hp, List.getElem?_drop, List.getElem?_drop]
    by_cases hin : off + p < (segments g).offset + (segments g).buf.length
    · rw [if_pos (by omega)]
      obtain ⟨hlow, hhigh⟩ : (off + p) / flags.sliceSize * flags.sliceSize ≤ off + p ∧
          off + p < ((off + p) / flags.sliceSize + 1) * flags.sliceSize := by
        refine ⟨Nat.div_mul_le_self _ _, ?_⟩
        rw [Nat.mul_comm]
        exact Nat.lt_mul_div_succ _ flags.sliceSize_pos
      rw [← hok.content _ g (hrun (off + p) (by omega) (by omega)) _ hlow hhigh (by omega) hin]
      congr 1
      omega
    · rw [if_neg (by omega), List.getElem?_eq_none]
      omega
  · rw [if_neg hp, if_neg (by omega)]

theorem LoopInv.cut (length : Nat) {lo hi k first off : Nat} {c : MemCache.Cursor}
    (hinv : LoopInv flags bytes slices w lo hi k c first off) (h : Geometry flags)
    (hlen : bytes.length ≤ flags.blockSize) (hok : SlicesHold flags bytes slices W segments)
    (hpos : 0 < length) (hfit : off + length ≤ bytes.length) (hend : off + length ≤ k * flags.sliceSize)
    (hw : w → ∀ j, first ≤ j → j < k → W j) :
    Pieces flags bytes slices w lo (c.cut segments length) (off + length) := by
  have hle := h.block_le
  have hss := flags.sliceSize_pos
  have hlow := hinv.low
  -- the slices of the cut
  have hslice : ∀ p, off ≤ p → p < off + length →
      first ≤ p / flags.sliceSize ∧ p / flags.sliceSize < k := by
    intro p hp hp'
    exact ⟨(Nat.le_div_iff_mul_le hss).mpr (by omega), (Nat.div_lt_iff_lt_mul hss).mpr (by omega)⟩
  have hindex : ∀ j, off ≤ j * flags.sliceSize → j * flags.sliceSize < off + length →
      slices[j]? = some c.curSegment := by
    intro j hj hj'
    obtain ⟨hfirst, hlast⟩ := hslice _ hj hj'
    rw [Nat.mul_div_cancel _ hss] at hfirst hlast
    exact hinv.run j hfirst hlast
  unfold MemCache.Cursor.cut
  cases hcur : c.curSegment with
  | none =>
      refine hinv.pieces.extend hinv.aligned (Nat.le_add_right ..) fun _ j hlo hhi => ?_
      rintro ⟨g, hg⟩
      rw [hindex j hlo hhi, hcur] at hg
      cases hg
  | some g =>
      have hrun : ∀ p, off ≤ p → p < off + length →
          slices[p / flags.sliceSize]? = some (some g) := fun p hp hp' => by
        obtain ⟨hfirst, hlast⟩ := hslice p hp hp'
        rw [hinv.run _ hfirst hlast, hcur]
      have hstart : (segments g).offset ≤ off := by
        have hg : slices[first]? = some (some g) := hcur ▸ hinv.run first (Nat.le_refl _) hinv.lt
        exact Nat.le_trans (hok.start first g hg) hlow
      have hoffset : u32 c.segmentOff = off := by
        rw [hinv.segmentOff]
        exact u32_of_lt (by omega)
      have hskip : u32 (c.segmentOff - (segments g).offset) = off - (segments g).offset := by
        rw [hinv.segmentOff, ← Int.ofNat_sub hstart]
        exact u32_of_lt (by omega)
      have hcut := hok.appendTo hfit hstart hrun
      have hlength : ((bytes.drop off).take
          (min length ((segments g).offset + (segments g).buf.length - off))).length =
          min length ((segments g).offset + (segments g).buf.length - off) := by
        rw [List.length_take, List.length_drop]
        omega
      dsimp only
      rw [hoffset, hskip, hcut]
      refine hinv.pieces.snoc hinv.aligned (by omega) ?_ ?_ (fun hw' => ?_) fun hdvd => ?_
      · rw [hlength]
        omega
      · rw [hlength]
      · -- the slices are held up to their ends
        obtain ⟨hfirst, hlast⟩ := hslice (off + length - 1) (by omega) (by omega)
        have hin := hok.filled _ g (hrun (off + length - 1) (by omega) (by omega))
          (hw hw' _ hfirst hlast) (off + length - 1) (Nat.div_mul_le_self _ _) ?_ (by omega)
        · rw [hlength]
          omega
        · rw [Nat.mul_comm]
          exact Nat.lt_mul_div_succ _ hss
      · rw [hlength] at hdvd ⊢
        by_cases hshort : length ≤ (segments g).offset + (segments g).buf.length - off
        · exact .empty (by omega)
        -- a segment does not end where one of its slices begins
        exfalso
        obtain ⟨j, hj⟩ := hdvd
        rw [Nat.mul_comm] at hj
        have hg := hindex j (by omega) (by omega)
        rw [hcur] at hg
        have := hok.reach j g hg (by omega)
        omega

theorem LoopInv.cut_inMemory (length : Nat) {lo hi k first off : Nat} {c : MemCache.Cursor}
    (hinv : LoopInv flags bytes slices w lo hi k c first off) (hoff : off < 4294967296)
    (hend : off + length ≤ k * flags.sliceSize)
    (hsegs : ∀ seg ∈ c.segments, InMemory flags slices seg) :
    ∀ seg ∈ c.cut segments length, InMemory flags slices seg := by
  unfold MemCache.Cursor.cut
  cases hcur : c.curSegment with
  | none => exact hsegs
  | some g =>
      intro seg hseg
      cases List.mem_append.mp hseg with
      | inl hseg => exact hsegs seg hseg
      | inr hseg =>
          rw [List.mem_singleton] at hseg
          subst hseg
          intro j hlow hhigh
          have hoffset : u32 c.segmentOff = off := by
            rw [hinv.segmentOff]
            exact u32_of_lt hoff
          dsimp only at hlow hhigh
          rw [hoffset] at hlow hhigh
          have hlength : (IOBuf.appendTo (segments g).buf length
              (u32 (c.segmentOff - (segments g).offset))).length ≤ length := by
            unfold IOBuf.appendTo
            exact List.length_take_le _ _
          have hlow' := hinv.low
          refine ⟨g, ?_⟩
          rw [hinv.run j (Nat.le_of_mul_le_mul_right (by omega : first * flags.sliceSize ≤
            j * flags.sliceSize) flags.sliceSize_pos)
            (Nat.lt_of_mul_lt_mul_right (a := flags.sliceSize) (by omega)), hcur]

theorem readSlice_inv {lo hi k first off : Nat} {c : MemCache.Cursor}
    (hinv : LoopInv flags bytes slices w lo hi k c first off) (h : Geometry flags)
    (hlen : bytes.length ≤ flags.blockSize) (hok : SlicesHold flags bytes slices W segments)
    (hhi : hi ≤ bytes.length) (hk : k * flags.sliceSize < hi)
    (hw : w → ∀ j, lo / flags.sliceSize ≤ j → j * flags.sliceSize < hi → W j)
    (hlo : lo / flags.sliceSize ≤ first) :
    ∃ c' first' off', MemCache.readSlice flags segments slices c k = some c' ∧
      LoopInv flags bytes slices w lo hi (k + 1) c' first' off' ∧ lo / flags.sliceSize ≤ first' ∧
      ((∀ seg ∈ c.segments, InMemory flags slices seg) →
        ∀ seg ∈ c'.segments, InMemory flags slices seg) := by
  have hle := h.block_le
  have hss := flags.sliceSize_pos
  have hfirst := hinv.lt_mul
  have hget : k < slices.length := by
    rw [hok.length]
    exact h.slice_lt (by omega)
  unfold MemCache.readSlice
  rw [List.getElem?_eq_getElem hget]
  dsimp only
  split
  next heq =>
    refine ⟨c, first, off, rfl, ⟨Nat.lt_succ_of_lt hinv.lt, hinv.low, hinv.high, hinv.origin,
      hinv.segmentOff, fun j hj hlt => ?_, hinv.size, hinv.pieces⟩, hlo, id⟩
    rcases Nat.lt_succ_iff_lt_or_eq.mp hlt with hlt | rfl
    · exact hinv.run j hj hlt
    · rw [List.getElem?_eq_getElem hget, heq]
  next =>
    have hlower : sliceLower flags k = k * flags.sliceSize := sliceLower_natCast (by omega)
    have hlength : u64 (sliceLower flags k - c.segmentOff) = k * flags.sliceSize - off := by
      rw [hlower, hinv.segmentOff, ← Int.ofNat_sub (Nat.le_of_lt hfirst)]
      exact u64_of_lt (by omega)
    have hsize : u64 ((c.size : Int) - (k * flags.sliceSize - off : Nat)) =
        hi - k * flags.sliceSize := by
      rw [hinv.size, ← Int.ofNat_sub (by omega)]
      rw [u64_of_lt (by omega)]
      omega
    refine ⟨_, k, k * flags.sliceSize, rfl, ⟨Nat.lt_succ_self k, Nat.le_refl _, ?_, Or.inl rfl, ?_,
      fun j hj hlt => ?_, ?_, ?_⟩, Nat.le_trans hlo (Nat.le_of_lt hinv.lt), fun hsegs => ?_⟩
    · rw [Nat.add_mul, Nat.one_mul]
      exact Nat.lt_add_of_pos_right hss
    · dsimp only
      rw [hlower]
    · obtain rfl : j = k := by omega
      exact List.getElem?_eq_getElem hget
    · dsimp only
      rw [hlength]
      exact hsize
    · dsimp only
      rw [hlength]
      have hcut := hinv.cut (k * flags.sliceSize - off) h hlen hok (by omega) (by omega) (by omega)
        fun hw' j hj hjk => hw hw' j (Nat.le_trans hlo hj) (Nat.lt_of_le_of_lt
          (Nat.mul_le_mul_right _ (Nat.le_of_lt hjk)) hk)
      rwa [show off + (k * flags.sliceSize - off) = k * flags.sliceSize by omega] at hcut
    · dsimp only
      rw [hlength]
      exact hinv.cut_inMemory _ (by omega) (by omega) hsegs

theorem readLoop_inv (h : Geometry flags) (hlen : bytes.length ≤ flags.blockSize)
    (hok : SlicesHold flags bytes slices W segments) {lo hi : Nat} (hhi : hi ≤ bytes.length)
    (hw : w → ∀ j, lo / flags.sliceSize ≤ j → j * flags.sliceSize < hi → W j) :
    ∀ (n k first off : Nat) (c : MemCache.Cursor),
      LoopInv flags bytes slices w lo hi k c first off → lo / flags.sliceSize ≤ first →
      (∀ j, j < k + n → j * flags.sliceSize < hi) →
      ∃ c' first' off',
        (List.range' k n).foldlM (MemCache.readSlice flags segments slices) c = some c' ∧
        LoopInv flags bytes slices w lo hi (k + n) c' first' off' ∧ lo / flags.sliceSize ≤ first' ∧
        ((∀ seg ∈ c.segments, InMemory flags slices seg) →
          ∀ seg ∈ c'.segments, InMemory flags slices seg)
  | 0, k, first, off, c, hinv, hlo, _ => ⟨c, first, off, rfl, hinv, hlo, id⟩
  | n + 1, k, first, off, c, hinv, hlo, hlt => by
      obtain ⟨c₁, first₁, off₁, hc₁, hinv₁, hlo₁, hmem₁⟩ :=
        readSlice_inv hinv h hlen hok hhi (hlt k (by omega)) hw hlo
      obtain ⟨c₂, first₂, off₂, hc₂, hinv₂, hlo₂, hmem₂⟩ := readLoop_inv h hlen hok hhi hw n (k + 1)
        first₁ off₁ c₁ hinv₁ hlo₁ fun j hj => hlt j (by omega)
      refine ⟨c₂, first₂, off₂, ?_, by rwa [show k + (n + 1) = k + 1 + n by omega], hlo₂,
        fun hsegs => hmem₂ (hmem₁ hsegs)⟩
      rw [List.range'_succ, List.foldlM_cons, hc₁]
      exact hc₂

/-- Reading a range, wherever it begins. -/
theorem readSegments_pieces (h : Geometry flags) (hlen : bytes.length ≤ flags.blockSize)
    (hok : SlicesHold flags bytes slices W segments) {lo size : Nat} (hsize : 0 < size)
    (hfit : lo + size ≤ bytes.length)
    (hw : w → ∀ j, lo / flags.sliceSize ≤ j → j * flags.sliceSize < lo + size → W j) :
    ∃ segs, MemCache.readSegments flags segments slices lo size = some segs ∧
      Pieces flags bytes slices w lo segs (lo + size) ∧ ∀ seg ∈ segs, InMemory flags slices seg := by
  have hle := h.block_le
  have hss := flags.sliceSize_pos
  have hlast : lo / flags.sliceSize ≤ (lo + size - 1) / flags.sliceSize :=
    Nat.div_le_div_right (by omega)
  have hbelow : ∀ j, j ≤ (lo + size - 1) / flags.sliceSize → j * flags.sliceSize < lo + size := by
    intro j hj
    have := Nat.div_mul_le_self (lo + size - 1) flags.sliceSize
    have := Nat.mul_le_mul_right flags.sliceSize hj
    omega
  have habove : lo + size ≤ ((lo + size - 1) / flags.sliceSize + 1) * flags.sliceSize := by
    have := Nat.lt_mul_div_succ (lo + size - 1) hss
    rw [Nat.mul_comm flags.sliceSize] at this
    omega
  have hlow := Nat.div_mul_le_self lo flags.sliceSize
  have hhigh := Nat.lt_mul_div_succ lo hss
  rw [Nat.mul_comm] at hhigh
  obtain ⟨first, hfirst⟩ : ∃ first, lo / flags.sliceSize = first := ⟨_, rfl⟩
  obtain ⟨last, hlasteq⟩ : ∃ last, (lo + size - 1) / flags.sliceSize = last := ⟨_, rfl⟩
  rw [hfirst] at hlast hlow hhigh hw
  rw [hlasteq] at hlast habove hbelow
  have hget : first < slices.length := by
    rw [hok.length]
    have := hbelow first hlast
    exact h.slice_lt (by omega)
  have hinit : LoopInv flags bytes slices w lo (lo + size) (first + 1)
      ⟨slices[first], (lo : Nat), size, []⟩ first lo := by
    refine ⟨Nat.lt_succ_self _, hlow, hhigh, Or.inr rfl, rfl, fun j hj hlt => ?_,
      by dsimp only; omega, Nat.le_refl _, fun _ => .empty (Nat.le_refl _)⟩
    obtain rfl : j = first := by omega
    exact List.getElem?_eq_getElem hget
  obtain ⟨c, first', off', hc, hinv, hlo', hmem⟩ := readLoop_inv h hlen hok hfit
    (fun hw' j hj => hw hw' j (hfirst ▸ hj)) (last - first) (first + 1) first lo _ hinit
    (Nat.le_of_eq hfirst) fun j hj => hbelow j (by omega)
  rw [hfirst] at hlo'
  have hcount : (((last : Nat) : Int) - (first : Nat)).toNat = last - first := by omega
  have hlastSlice : first + 1 + (last - first) = last + 1 := by omega
  rw [hlastSlice] at hinv
  have hsmall : off' < lo + size := by
    have hlt := hinv.lt
    have := hbelow first' (by omega)
    rcases hinv.origin with h | h <;> omega
  refine ⟨c.cut segments c.size, ?_, ?_, ?_⟩
  · have hstart : off2slice flags lo = (first : Nat) := by
      rw [off2slice_natCast (by omega), hfirst]
    have hstop : off2slice flags ((lo : Int) + size - 1) = (last : Nat) := by
      rw [show ((lo : Int) + size - 1) = (lo + size - 1 : Nat) by omega,
        off2slice_natCast (by omega), hlasteq]
    unfold MemCache.readSegments
    simp only [hstart, hstop]
    rw [if_neg (Int.not_lt.mpr (Int.natCast_nonneg _)), Int.toNat_natCast,
      List.getElem?_eq_getElem hget, hcount]
    simp only [hc]
  · rw [hinv.size]
    have hcut := hinv.cut (lo + size - off') h hlen hok (by omega) (by omega) (by omega)
      fun hw' j hj hjk => hw hw' j (Nat.le_trans hlo' hj) (hbelow j (by omega))
    rwa [show off' + (lo + size - off') = lo + size by omega] at hcut
  · rw [hinv.size]
    exact hinv.cut_inMemory _ (by omega) (by omega) (hmem fun _ hseg => absurd hseg List.not_mem_nil)

end Loop

/-- Reading a range that starts on a slice boundary. -/
theorem readSegments_tiles {segments : SegmentRef → BlockSegment} (h : Geometry flags)
    (hlen : bytes.length ≤ flags.blockSize)
    (hok : SlicesHold flags bytes slices (fun _ => True) segments)
    {offset size : Nat} (hoffset : flags.sliceSize ∣ offset) (hsize : 0 < size)
    (hfit : offset + size ≤ bytes.length) :
    ∃ segs, MemCache.readSegments flags segments slices offset size = some segs ∧
      Tiles flags bytes slices offset segs (offset + size) ∧
      ∀ seg ∈ segs, InMemory flags slices seg := by
  have hall : True → ∀ j, offset / flags.sliceSize ≤ j → j * flags.sliceSize < offset + size →
      True := fun h _ _ _ => h
  obtain ⟨segs, hread, hpieces, hmem⟩ := readSegments_pieces h hlen hok hsize hfit hall
  exact ⟨segs, hread, hpieces.tiles trivial (Or.inl hoffset), hmem⟩

/-- A range that ends in no later slice than it begins is answered from one segment. -/
theorem readSegments_back {W : Nat → Prop} {segments : SegmentRef → BlockSegment}
    {segs : List BlockSegment} {lo size : Nat} (hok : SlicesOk flags bytes W segments slices)
    (hback : off2slice flags ((lo : Int) + size - 1) ≤ off2slice flags lo)
    (h : MemCache.readSegments flags segments slices lo size = some segs) :
    segs = [] ∨ ∃ seg, segs = [seg] ∧ seg.offset = u32 lo ∧ seg.buf.length ≤ flags.blockSize := by
  have hcount : (off2slice flags ((lo : Int) + size - 1) - off2slice flags lo).toNat = 0 := by omega
  unfold MemCache.readSegments at h
  dsimp only at h
  rw [hcount] at h
  split at h
  next => cases h
  next =>
    cases hx : slices[(off2slice flags lo).toNat]? with
    | none =>
        rw [hx] at h
        cases h
    | some x =>
        rw [hx] at h
        simp only [List.range'_zero, List.foldlM_nil, Option.pure_def, Option.some.injEq] at h
        rw [← h]
        unfold MemCache.Cursor.cut
        cases x with
        | none => exact Or.inl rfl
        | some g =>
            refine Or.inr ⟨_, List.nil_append _, rfl, ?_⟩
            have hroom := (hok.segment _ g hx).1.room
            unfold IOBuf.appendTo
            dsimp only
            rw [List.length_take, List.length_drop]
            omega

end StarCache
