import StarCache.Content.MemRead
import StarCache.Impl.Public
import Mathlib.Data.List.Induction

/-!
# The last write of a slice

Writes to a block in memory may overlap. A read cuts the range where the segment of the
slices changes, so what it returns of a slice is what the last segment written over it holds.
-/

namespace StarCache

open Prog MachineInt

/-- Calls of `write_block` on one block, one after the other. -/
def MemCache.writeCalls (pf : Platform) : List (List SegmentRef) → MemBlockItem →
    Prog State MemBlockItem
  | [], block => pure block
  | refs :: rest, block => do
      let block ← MemCache.writeBlock pf block refs
      writeCalls pf rest block

variable (flags : Flags) (segments : SegmentRef → BlockSegment)

/-- The last of the segments that covers slice `k`. -/
def lastWritten (refs : List SegmentRef) (k : Nat) : Option SegmentRef :=
  refs.reverse.find? fun g => decide ((segments g).Covers flags k)

/-- The cuts lie in order between `lo` and `hi`, each within the buffer of the segment that holds
all its slices; together they are the part of the range that is in memory. -/
structure Cuts (slices : List (Option SegmentRef)) (lo hi : Nat) (segs : List BlockSegment) :
    Prop where
  pos : ∀ seg ∈ segs, 0 < seg.size ∧ seg.buf.length = seg.size
  inside : ∀ seg ∈ segs, lo ≤ seg.offset ∧ seg.offset + seg.size ≤ hi
  ordered : segs.Pairwise fun x y => x.offset + x.size ≤ y.offset
  source : ∀ seg ∈ segs, ∃ g, (segments g).offset ≤ seg.offset ∧
    seg.offset - (segments g).offset + seg.size ≤ (segments g).buf.length ∧
    seg.buf = IOBuf.appendTo (segments g).buf seg.size (seg.offset - (segments g).offset) ∧
    ∀ p, seg.offset ≤ p → p < seg.offset + seg.size → slices[p / flags.sliceSize]? = some (some g)
  covers : ∀ p, lo ≤ p → p < hi → Resident slices (p / flags.sliceSize) →
    ∃ seg ∈ segs, seg.offset ≤ p ∧ p < seg.offset + seg.size

/-- The segment of a slice holds the slice, as far as the block has `n` bytes. -/
def Backed (n : Nat) (slices : List (Option SegmentRef)) : Prop :=
  ∀ p < n, ∀ g, slices[p / flags.sliceSize]? = some (some g) →
    (segments g).offset ≤ p / flags.sliceSize * flags.sliceSize ∧
      p < (segments g).offset + (segments g).buf.length

variable {flags segments} {slices : List (Option SegmentRef)} {lo mid hi n : Nat}
  {segs : List BlockSegment}

/-! ## Cuts -/

theorem Cuts.nil (lo : Nat) : Cuts flags segments slices lo lo [] := by
  constructor
  · intro seg hseg
    cases hseg
  · intro seg hseg
    cases hseg
  · exact List.Pairwise.nil
  · intro seg hseg
    cases hseg
  · intro p hlow hhigh
    omega

/-- Slices that are not in memory follow. -/
theorem Cuts.gap (h : Cuts flags segments slices lo mid segs) (hle : mid ≤ hi)
    (hnull : ∀ p, mid ≤ p → p < hi → slices[p / flags.sliceSize]? = some none) :
    Cuts flags segments slices lo hi segs := by
  refine ⟨h.pos, fun seg hseg => ?_, h.ordered, h.source, fun p hlow hhigh hres => ?_⟩
  · obtain ⟨hstart, hstop⟩ := h.inside seg hseg
    exact ⟨hstart, hstop.trans hle⟩
  · by_cases hp : p < mid
    · exact h.covers p hlow hp hres
    · obtain ⟨g, hg⟩ := hres
      rw [hnull p (Nat.not_lt.mp hp) hhigh] at hg
      cases hg

/-- Slices of one segment follow. -/
theorem Cuts.snoc (h : Cuts flags segments slices lo mid segs) (hlo : lo ≤ mid) (hlt : mid < hi)
    (hn : hi ≤ n) (hback : Backed flags segments n slices) {g : SegmentRef}
    (hrun : ∀ p, mid ≤ p → p < hi → slices[p / flags.sliceSize]? = some (some g)) :
    Cuts flags segments slices lo hi (segs ++ [⟨mid, hi - mid,
      IOBuf.appendTo (segments g).buf (hi - mid) (mid - (segments g).offset)⟩]) ∧
    (IOBuf.appendTo (segments g).buf (hi - mid) (mid - (segments g).offset)).length = hi - mid ∧
    (segments g).offset ≤ mid := by
  obtain ⟨hfirst, _⟩ := hback mid (by omega) g (hrun mid (Nat.le_refl _) hlt)
  obtain ⟨_, hlast⟩ := hback (hi - 1) (by omega) g (hrun (hi - 1) (by omega) (by omega))
  have hstart : (segments g).offset ≤ mid := hfirst.trans (Nat.div_mul_le_self _ _)
  have hlength : (IOBuf.appendTo (segments g).buf (hi - mid)
      (mid - (segments g).offset)).length = hi - mid := by
    unfold IOBuf.appendTo
    rw [List.length_take, List.length_drop]
    omega
  refine ⟨⟨?_, ?_, ?_, ?_, ?_⟩, hlength, hstart⟩
  · intro seg hseg
    rcases List.mem_append.mp hseg with hold | hnew
    · exact h.pos seg hold
    · rw [List.mem_singleton.mp hnew]
      exact ⟨by dsimp only; omega, hlength⟩
  · intro seg hseg
    rcases List.mem_append.mp hseg with hold | hnew
    · obtain ⟨hfrom, hto⟩ := h.inside seg hold
      exact ⟨hfrom, by omega⟩
    · rw [List.mem_singleton.mp hnew]
      exact ⟨hlo, by dsimp only; omega⟩
  · rw [List.pairwise_append]
    refine ⟨h.ordered, List.pairwise_singleton _ _, fun x hx y hy => ?_⟩
    rw [List.mem_singleton.mp hy]
    exact (h.inside x hx).2
  · intro seg hseg
    rcases List.mem_append.mp hseg with hold | hnew
    · exact h.source seg hold
    · rw [List.mem_singleton.mp hnew]
      refine ⟨g, hstart, ?_, rfl, fun p hlow hhigh => hrun p hlow ?_⟩
      · dsimp only
        omega
      · dsimp only at hhigh
        omega
  · intro p hlow hhigh hres
    by_cases hp : p < mid
    · obtain ⟨seg, hseg, hin⟩ := h.covers p hlow hp hres
      exact ⟨seg, List.mem_append_left _ hseg, hin⟩
    · refine ⟨_, List.mem_append_right _ (List.mem_singleton_self _), ?_, ?_⟩
      · dsimp only
        omega
      · dsimp only
        omega

/-! ## The read loop -/

/-- Before slice `k`: what lies before `mid` has been cut, and the slices from there on are those
of the current segment. -/
structure ReadInv (flags : Flags) (segments : SegmentRef → BlockSegment)
    (slices : List (Option SegmentRef)) (lo hi k : Nat) (c : MemCache.Cursor) (mid : Nat) :
    Prop where
  lo_le : lo ≤ mid
  lt_hi : mid < hi
  lt : mid < k * flags.sliceSize
  segmentOff : c.segmentOff = mid
  size : c.size = hi - mid
  run : ∀ p, mid ≤ p → p < k * flags.sliceSize → slices[p / flags.sliceSize]? = some c.curSegment
  cuts : Cuts flags segments slices lo mid c.segments

/-- The cut up to `stop`. -/
theorem ReadInv.cut {k stop : Nat} {c : MemCache.Cursor}
    (hinv : ReadInv flags segments slices lo hi k c mid) (hn : n ≤ 2147483648)
    (hback : Backed flags segments n slices) (hlt : mid < stop) (hstop : stop ≤ n)
    (hend : stop ≤ k * flags.sliceSize) :
    Cuts flags segments slices lo stop (c.cut segments (stop - mid)) := by
  have hrun : ∀ p, mid ≤ p → p < stop → slices[p / flags.sliceSize]? = some c.curSegment := by
    intro p hlow hhigh
    exact hinv.run p hlow (by omega)
  unfold MemCache.Cursor.cut
  cases hcur : c.curSegment with
  | none =>
      rw [hcur] at hrun
      exact hinv.cuts.gap (Nat.le_of_lt hlt) hrun
  | some g =>
      rw [hcur] at hrun
      obtain ⟨hcuts, hlength, hstart⟩ := hinv.cuts.snoc hinv.lo_le hlt hstop hback hrun
      have hoffset : u32 c.segmentOff = mid := by
        rw [hinv.segmentOff]
        exact u32_of_lt (by omega)
      have hskip : u32 (c.segmentOff - (segments g).offset) = mid - (segments g).offset := by
        rw [hinv.segmentOff, ← Int.ofNat_sub hstart]
        exact u32_of_lt (by omega)
      dsimp only
      rw [hoffset, hskip, hlength, u32_of_lt (by omega)]
      exact hcuts

theorem readSlice_cuts (h : Geometry flags) (hn : n ≤ flags.blockSize)
    (hlength : slices.length = flags.blockSize / flags.sliceSize)
    (hback : Backed flags segments n slices) (hhi : hi ≤ n) {k : Nat} {c : MemCache.Cursor}
    (hinv : ReadInv flags segments slices lo hi k c mid) (hk : k * flags.sliceSize < hi) :
    ∃ c' mid', MemCache.readSlice flags segments slices c k = some c' ∧
      ReadInv flags segments slices lo hi (k + 1) c' mid' := by
  have hle := h.block_le
  have hss := flags.sliceSize_pos
  have hget : k < slices.length := by
    rw [hlength]
    exact h.slice_lt (by omega)
  have hslice : ∀ p, k * flags.sliceSize ≤ p → p < (k + 1) * flags.sliceSize →
      p / flags.sliceSize = k := fun p hlow hhigh => Nat.div_eq_of_lt_le hlow hhigh
  have hnext : k * flags.sliceSize < (k + 1) * flags.sliceSize := by
    rw [Nat.succ_mul]
    omega
  unfold MemCache.readSlice
  rw [List.getElem?_eq_getElem hget]
  dsimp only
  split
  next heq =>
    refine ⟨c, mid, rfl, hinv.lo_le, hinv.lt_hi, hinv.lt.trans hnext, hinv.segmentOff, hinv.size,
      fun p hlow hhigh => ?_, hinv.cuts⟩
    by_cases hp : p < k * flags.sliceSize
    · exact hinv.run p hlow hp
    · rw [hslice p (Nat.not_lt.mp hp) hhigh, List.getElem?_eq_getElem hget, heq]
  next =>
    have hlt := hinv.lt
    have hlower : sliceLower flags k = k * flags.sliceSize := sliceLower_natCast (by omega)
    have hcut : u64 (sliceLower flags k - c.segmentOff) = k * flags.sliceSize - mid := by
      rw [hlower, hinv.segmentOff, ← Int.ofNat_sub (Nat.le_of_lt hlt)]
      exact u64_of_lt (by omega)
    have hrest : u64 ((c.size : Int) - (k * flags.sliceSize - mid : Nat)) =
        hi - k * flags.sliceSize := by
      rw [hinv.size, ← Int.ofNat_sub (by omega), u64_of_lt (by omega)]
      omega
    refine ⟨_, k * flags.sliceSize, rfl, ?_, hk, hnext, ?_, ?_, fun p hlow hhigh => ?_, ?_⟩
    · exact hinv.lo_le.trans (Nat.le_of_lt hlt)
    · dsimp only
      rw [hlower]
    · dsimp only
      rw [hcut]
      exact hrest
    · rw [hslice p hlow hhigh]
      exact List.getElem?_eq_getElem hget
    · dsimp only
      rw [hcut]
      exact hinv.cut (hn.trans hle) hback hlt (by omega) (Nat.le_refl _)

theorem readLoop_cuts (h : Geometry flags) (hn : n ≤ flags.blockSize)
    (hlength : slices.length = flags.blockSize / flags.sliceSize)
    (hback : Backed flags segments n slices) (hhi : hi ≤ n) (count : Nat) {k : Nat}
    {c : MemCache.Cursor} (hinv : ReadInv flags segments slices lo hi k c mid)
    (hbelow : ∀ j, j < k + count → j * flags.sliceSize < hi) :
    ∃ c' mid', (List.range' k count).foldlM (MemCache.readSlice flags segments slices) c = some c' ∧
      ReadInv flags segments slices lo hi (k + count) c' mid' := by
  induction count generalizing k c mid with
  | zero => exact ⟨c, mid, rfl, hinv⟩
  | succ count ih =>
      obtain ⟨c₁, mid₁, hc₁, hinv₁⟩ := readSlice_cuts h hn hlength hback hhi hinv
        (hbelow k (by omega))
      obtain ⟨c₂, mid₂, hc₂, hinv₂⟩ := ih hinv₁ fun j hj => hbelow j (by omega)
      refine ⟨c₂, mid₂, ?_, by rwa [show k + (count + 1) = k + 1 + count by omega]⟩
      rw [List.range'_succ, List.foldlM_cons, hc₁]
      exact hc₂

/-- Reading any range of the block. -/
theorem readSegments_cuts (h : Geometry flags) (hn : n ≤ flags.blockSize)
    (hlength : slices.length = flags.blockSize / flags.sliceSize)
    (hback : Backed flags segments n slices) {off size : Nat} (hsize : 0 < size)
    (hfit : off + size ≤ n) :
    ∃ segs, MemCache.readSegments flags segments slices off size = some segs ∧
      Cuts flags segments slices off (off + size) segs := by
  have hle := h.block_le
  have hss := flags.sliceSize_pos
  have hstart : off2slice flags off = (off / flags.sliceSize : Nat) := off2slice_natCast (by omega)
  have hstop : off2slice flags ((off : Int) + size - 1) =
      ((off + size - 1) / flags.sliceSize : Nat) := by
    rw [show ((off : Int) + size - 1) = (off + size - 1 : Nat) by omega]
    exact off2slice_natCast (by omega)
  have horder : off / flags.sliceSize ≤ (off + size - 1) / flags.sliceSize :=
    Nat.div_le_div_right (by omega)
  have hbelow : ∀ j, j ≤ (off + size - 1) / flags.sliceSize → j * flags.sliceSize < off + size := by
    intro j hj
    have := (Nat.le_div_iff_mul_le hss).mp hj
    omega
  have habove : off + size ≤ ((off + size - 1) / flags.sliceSize + 1) * flags.sliceSize := by
    have := Nat.lt_mul_div_succ (off + size - 1) hss
    rw [Nat.mul_comm flags.sliceSize] at this
    omega
  have hfirst := Nat.lt_mul_div_succ off hss
  rw [Nat.mul_comm flags.sliceSize] at hfirst
  have hget : off / flags.sliceSize < slices.length := by
    rw [hlength]
    apply h.slice_lt
    have := hbelow _ horder
    omega
  have hinit : ReadInv flags segments slices off (off + size) (off / flags.sliceSize + 1)
      ⟨slices[off / flags.sliceSize], off, size, []⟩ off := by
    refine ⟨Nat.le_refl _, by omega, hfirst, rfl, by dsimp only; omega, fun p hlow hhigh => ?_,
      .nil off⟩
    have hslice : p / flags.sliceSize = off / flags.sliceSize :=
      Nat.div_eq_of_lt_le ((Nat.div_mul_le_self _ _).trans hlow) hhigh
    rw [hslice]
    exact List.getElem?_eq_getElem hget
  generalize off / flags.sliceSize = first at *
  generalize (off + size - 1) / flags.sliceSize = last at *
  obtain ⟨c, mid, hc, hinv⟩ := readLoop_cuts h hn hlength hback hfit (last - first) hinit
    fun j hj => hbelow j (by omega)
  have hcount : ((last : Int) - (first : Nat)).toNat = last - first := by omega
  have hlast : first + 1 + (last - first) = last + 1 := by omega
  rw [hlast] at hinv
  refine ⟨c.cut segments c.size, ?_, ?_⟩
  · unfold MemCache.readSegments
    simp only [hstart, hstop]
    rw [if_neg (by omega), Int.toNat_natCast, List.getElem?_eq_getElem hget, hcount]
    simp only [hc]
  · rw [hinv.size]
    exact hinv.cut (hn.trans hle) hback hinv.lt_hi hfit habove

/-! ## The writes -/

section Writes

variable {refs : List SegmentRef} {g : SegmentRef} {k : Nat}

theorem lastWritten_concat (refs : List SegmentRef) (g : SegmentRef) (k : Nat) :
    lastWritten flags segments (refs ++ [g]) k =
      if (segments g).Covers flags k then some g else lastWritten flags segments refs k := by
  unfold lastWritten
  rw [List.reverse_append, List.reverse_singleton, List.singleton_append, List.find?_cons]
  by_cases hk : (segments g).Covers flags k
  · rw [if_pos hk, decide_eq_true hk]
  · rw [if_neg hk, decide_eq_false hk]

theorem lastWritten_spec (h : lastWritten flags segments refs k = some g) :
    g ∈ refs ∧ (segments g).Covers flags k := by
  unfold lastWritten at h
  have hcovers := List.find?_some h
  exact ⟨List.mem_reverse.mp (List.mem_of_find?_eq_some h), of_decide_eq_true hcovers⟩

theorem lastWritten_isSome (hg : g ∈ refs) (hk : (segments g).Covers flags k) :
    ∃ g', lastWritten flags segments refs k = some g' := by
  rw [← Option.isSome_iff_exists]
  unfold lastWritten
  rw [List.find?_isSome]
  exact ⟨g, List.mem_reverse.mpr hg, decide_eq_true hk⟩

/-- What the slices hold after the writes. -/
theorem writeSegments_last (h : Geometry flags) (hn : n ≤ flags.blockSize) {block : MemBlockItem}
    (hlength : block.slices.length = flags.blockSize / flags.sliceSize)
    (hrefs : ∀ g ∈ refs, WholeSlices flags n (segments g)) :
    ∃ block', refs.foldlM (MemCache.writeSegment flags segments) block = some block' ∧
      block'.slices.length = block.slices.length ∧
      ∀ k, block'.slices[k]? =
        ((lastWritten flags segments refs k).map some).or block.slices[k]? := by
  induction refs using List.reverseRecOn with
  | nil => exact ⟨block, rfl, rfl, fun k => rfl⟩
  | append_singleton refs g ih =>
      obtain ⟨b₁, hb₁, hlength₁, hget₁⟩ := ih fun g' hg' =>
        hrefs g' (List.mem_append_left _ hg')
      obtain ⟨b₂, hb₂, _, hlength₂, hget₂⟩ := writeSegment_get h hn (hlength₁.trans hlength)
        (hrefs g (List.mem_append_right _ (List.mem_singleton_self g))).spans
      refine ⟨b₂, ?_, hlength₂.trans hlength₁, fun k => ?_⟩
      · rw [List.foldlM_append, hb₁]
        change List.foldlM _ b₁ [g] = some b₂
        rw [List.foldlM_cons, hb₂]
        rfl
      · rw [hget₂, lastWritten_concat]
        by_cases hk : (segments g).Covers flags k
        · rw [if_pos hk, if_pos hk]
          rfl
        · rw [if_neg hk, if_neg hk, hget₁]

/-- The calls write all their segments in order. -/
theorem writeCalls_of_foldlM {pf : Platform} {calls : List (List SegmentRef)}
    {block block' : MemBlockItem} {s : State}
    (h : calls.flatten.foldlM (MemCache.writeSegment pf.flags s.segments) block = some block') :
    MemCache.writeCalls pf calls block s = some (block', s) := by
  induction calls generalizing block with
  | nil =>
      cases h
      rfl
  | cons refs rest ih =>
      rw [List.flatten_cons, List.foldlM_append] at h
      obtain ⟨block₁, hfirst, hrest⟩ := Option.bind_eq_some_iff.mp h
      have hwrite : MemCache.writeBlock pf block refs s = some (block₁, s) := by
        change Option.map (fun block => (block, s))
          (refs.foldlM (MemCache.writeSegment pf.flags s.segments) block) = some (block₁, s)
        rw [hfirst]
        rfl
      unfold MemCache.writeCalls
      rw [bind_of_eq hwrite]
      exact ih hrest

end Writes

/-! ## Reading back -/

/-- What a read of the range from `lo` to `hi` returns after the segments have been written. -/
structure ReadsLast (flags : Flags) (segments : SegmentRef → BlockSegment)
    (refs : List SegmentRef) (lo hi : Nat) (segs : List BlockSegment) : Prop where
  pos : ∀ seg ∈ segs, 0 < seg.size ∧ seg.buf.length = seg.size
  inside : ∀ seg ∈ segs, lo ≤ seg.offset ∧ seg.offset + seg.size ≤ hi
  ordered : segs.Pairwise fun x y => x.offset + x.size ≤ y.offset
  covers : ∀ p, lo ≤ p → p < hi → ((∃ seg ∈ segs, seg.offset ≤ p ∧ p < seg.offset + seg.size) ↔
    ∃ g ∈ refs, (segments g).Covers flags (p / flags.sliceSize))
  /-- A part of one buffer, which reaches that far. -/
  source : ∀ seg ∈ segs, ∃ g ∈ refs, (segments g).offset ≤ seg.offset ∧
    seg.offset - (segments g).offset + seg.size ≤ (segments g).buf.length ∧
    seg.buf = IOBuf.appendTo (segments g).buf seg.size (seg.offset - (segments g).offset)
  byte : ∀ seg ∈ segs, ∀ p, seg.offset ≤ p → p < seg.offset + seg.size →
    ∃ g, lastWritten flags segments refs (p / flags.sliceSize) = some g ∧
      seg.buf[p - seg.offset]? = (segments g).buf[p - (segments g).offset]? ∧
      p - (segments g).offset < (segments g).buf.length

theorem WholeSlices.backs {g : SegmentRef} (h : WholeSlices flags n (segments g)) {p : Nat}
    (hp : p < n) (hcovers : (segments g).Covers flags (p / flags.sliceSize)) :
    (segments g).offset ≤ p / flags.sliceSize * flags.sliceSize ∧
      p < (segments g).offset + (segments g).buf.length := by
  obtain ⟨hstart, hstop⟩ := hcovers
  have hlong := h.long
  have hceil := Nat.lt_mul_div_succ p flags.sliceSize_pos
  refine ⟨hstart, ?_⟩
  rcases h.ends with ⟨m, hm⟩ | hend
  · rw [hm, Nat.mul_comm flags.sliceSize] at hstop
    have hle := Nat.mul_le_mul_left flags.sliceSize (Nat.lt_of_mul_lt_mul_right hstop)
    have hsucc : (p / flags.sliceSize).succ = p / flags.sliceSize + 1 := rfl
    rw [hsucc] at hle
    omega
  · omega

theorem Cuts.readsLast {refs : List SegmentRef} {segments' : SegmentRef → BlockSegment}
    (h : Cuts flags segments' slices lo hi segs) (hsame : ∀ g ∈ refs, segments' g = segments g)
    (hlast : ∀ p < hi, slices[p / flags.sliceSize]? =
      some (lastWritten flags segments refs (p / flags.sliceSize))) :
    ReadsLast flags segments refs lo hi segs := by
  have hresident : ∀ p < hi, ∀ g, slices[p / flags.sliceSize]? = some (some g) →
      lastWritten flags segments refs (p / flags.sliceSize) = some g := by
    intro p hp g hg
    rw [hlast p hp] at hg
    exact Option.some.inj hg
  refine ⟨h.pos, h.inside, h.ordered, fun p hlow hhigh => ⟨?_, ?_⟩, fun seg hseg => ?_,
    fun seg hseg p hlow hhigh => ?_⟩
  · rintro ⟨seg, hseg, hfrom, hto⟩
    obtain ⟨g, _, _, _, hrun⟩ := h.source seg hseg
    obtain ⟨hg, hcovers⟩ := lastWritten_spec (hresident p hhigh g (hrun p hfrom hto))
    exact ⟨g, hg, hcovers⟩
  · rintro ⟨g, hg, hcovers⟩
    obtain ⟨g', hg'⟩ := lastWritten_isSome hg hcovers
    exact h.covers p hlow hhigh ⟨g', by rw [hlast p hhigh, hg']⟩
  · obtain ⟨g, hstart, hfit, hbuf, hrun⟩ := h.source seg hseg
    obtain ⟨hpos, _⟩ := h.pos seg hseg
    obtain ⟨_, hstop⟩ := h.inside seg hseg
    obtain ⟨hg, _⟩ := lastWritten_spec
      (hresident seg.offset (by omega) g (hrun seg.offset (Nat.le_refl _) (by omega)))
    rw [hsame g hg] at hstart hfit hbuf
    exact ⟨g, hg, hstart, hfit, hbuf⟩
  · obtain ⟨g, hstart, hfit, hbuf, hrun⟩ := h.source seg hseg
    obtain ⟨_, hstop⟩ := h.inside seg hseg
    have hwritten := hresident p (by omega) g (hrun p hlow hhigh)
    rw [hsame g (lastWritten_spec hwritten).1] at hstart hfit hbuf
    refine ⟨g, hwritten, ?_, by omega⟩
    rw [hbuf]
    unfold IOBuf.appendTo
    rw [List.getElem?_take, if_pos (by omega), List.getElem?_drop]
    congr 1
    omega

/-- The read loop after touching the eviction policy. -/
theorem readBlock_eq {pf : Platform} (key : BlockKey) (block : MemBlockItem) (offset : Int)
    {size : Nat} (hsize : 0 < size) (s : State) {segs : List BlockSegment}
    (hsegs : MemCache.readSegments pf.flags s.segments block.slices offset size = some segs) :
    ∃ t, MemCache.readBlock pf key (some block) offset size s = some (segs, t) := by
  have htouch : ∃ handle t, MemCache.evictTouch pf key false s = some (handle, t) ∧
      t.segments = s.segments := by
    unfold MemCache.evictTouch
    simp only [bind_of_eq (show tick s = some (_, _) from rfl)]
    split
    · exact ⟨_, _, rfl, rfl⟩
    · exact ⟨_, _, rfl, rfl⟩
  obtain ⟨handle, t, htouch, hsame⟩ := htouch
  unfold MemCache.readBlock
  dsimp only
  rw [if_neg (Nat.ne_of_gt hsize), bind_of_eq htouch,
    bind_of_eq (show MemCache.evictRelease handle t = some ((), _) from rfl),
    bind_of_eq (show Prog.read _ = some (_, _) from rfl)]
  dsimp only
  rw [hsame, hsegs]
  exact ⟨_, rfl⟩

/-- After any writes of whole slices a read of any range returns, of the slices that have been
written, what the last write has put there. -/
theorem read_last_written {pf : Platform} (h : Geometry pf.flags) (hn : n ≤ pf.flags.blockSize)
    {s : State} {calls : List (List SegmentRef)}
    (hcalls : ∀ refs ∈ calls, ∀ g ∈ refs, WholeSlices pf.flags n (s.segments g))
    (state : BlockState) :
    ∃ block, MemCache.writeCalls pf calls (.new pf.flags state) s = some (block, s) ∧
      ∀ u : State, (∀ g ∈ calls.flatten, u.segments g = s.segments g) →
        ∀ (key : BlockKey) (off size : Nat), 0 < size → off + size ≤ n →
          ∃ segs t, MemCache.readBlock pf key (some block) off size u = some (segs, t) ∧
            ReadsLast pf.flags s.segments calls.flatten off (off + size) segs := by
  have hflat : ∀ g ∈ calls.flatten, WholeSlices pf.flags n (s.segments g) := by
    intro g hg
    obtain ⟨refs, hrefs, hg⟩ := List.mem_flatten.mp hg
    exact hcalls refs hrefs g hg
  have hcount : (MemBlockItem.new pf.flags state).slices.length =
      pf.flags.blockSize / pf.flags.sliceSize := by
    unfold MemBlockItem.new
    rw [List.length_replicate, h.blockSliceCount]
  obtain ⟨block, hwrite, hlength, hget⟩ := writeSegments_last h hn hcount hflat
  refine ⟨block, writeCalls_of_foldlM hwrite, fun u hsame key off size hsize hfit => ?_⟩
  have hlast : ∀ p < n, block.slices[p / pf.flags.sliceSize]? =
      some (lastWritten pf.flags s.segments calls.flatten (p / pf.flags.sliceSize)) := by
    intro p hp
    have hslice : p / pf.flags.sliceSize < blockSliceCount pf.flags := by
      rw [h.blockSliceCount]
      have := Nat.div_mul_le_self p pf.flags.sliceSize
      exact h.slice_lt (by omega)
    rw [hget]
    cases lastWritten pf.flags s.segments calls.flatten (p / pf.flags.sliceSize) with
    | some g => rfl
    | none =>
        unfold MemBlockItem.new
        dsimp only
        rw [List.getElem?_replicate, if_pos hslice]
        rfl
  have hback : Backed pf.flags u.segments n block.slices := by
    intro p hp g hg
    rw [hlast p hp] at hg
    obtain ⟨hmem, hcovers⟩ := lastWritten_spec (Option.some.inj hg)
    rw [hsame g hmem]
    exact (hflat g hmem).backs hp hcovers
  obtain ⟨segs, hread, hcuts⟩ := readSegments_cuts h hn (hlength.trans hcount) hback hsize hfit
  obtain ⟨t, hread⟩ := readBlock_eq key block off hsize u hread
  exact ⟨segs, t, hread, hcuts.readsLast hsame fun p hp => hlast p (by omega)⟩

/-- In a block of three bytes the last one is written again, from a padded buffer. -/
theorem read_last_written_overlap : ∃ (s : State) (block : MemBlockItem) (segs : List BlockSegment)
    (t : State),
    MemCache.writeCalls (.simple .small .reliable) [[0], [1]] (.new .small .dirty) s =
        some (block, s) ∧
      MemCache.readBlock (.simple .small .reliable) ⟨1, 0⟩ (some block) 1 2 s = some (segs, t) ∧
      ReadsLast .small s.segments [0, 1] 1 3 segs := by
  let segments : SegmentRef → BlockSegment := fun g =>
    if g = 0 then ⟨0, 3, [1, 2, 3]⟩ else ⟨2, 1, [9, 0]⟩
  let s : State := { StarCacheImpl.init (.simple .small .reliable) (.oneDir 12 16) with segments }
  have hcalls : ∀ refs ∈ [[0], [1]], ∀ g ∈ refs, WholeSlices .small 3 (s.segments g) := by
    intro refs hrefs g hg
    have hg : g = 0 ∨ g = 1 := by simpa using List.mem_flatten.mpr ⟨refs, hrefs, hg⟩
    rcases hg with rfl | rfl
    · exact ⟨by decide, by decide, by decide, by decide, by decide⟩
    · exact ⟨by decide, by decide, by decide, by decide, by decide⟩
  obtain ⟨block, hwrite, hread⟩ := @read_last_written 3 (.simple .small .reliable)
    ⟨by decide, by decide⟩ (by decide) s [[0], [1]] hcalls .dirty
  obtain ⟨segs, t, hsegs, hlast⟩ := hread s (fun _ _ => rfl) ⟨1, 0⟩ 1 2 (by decide) (by decide)
  exact ⟨s, block, segs, t, hwrite, hsegs, hlast⟩

end StarCache
