import StarCache.Content.Slices

/-!
# The fullness test of the flush

The test adds up the sizes of the segments in the slice map, each of which has to start where
the sum stands. It never takes a partial block for full. A full block passes when its segments
meet, and is taken for partial when one of them hides a part of another.
-/

namespace StarCache

open MachineInt StarCacheImpl

/-- A segment of a block of `n` bytes, aligned to slices but for the end of the block. -/
structure Placed (flags : Flags) (n : Nat) (seg : BlockSegment) : Prop where
  offset_lt : seg.offset < 4294967296
  size_lt : seg.size < 4294967296
  aligned : flags.sliceSize ∣ seg.offset
  pos : 0 < seg.size
  fits : seg.offset + seg.size ≤ n
  ends : flags.sliceSize ∣ seg.offset + seg.size ∨ seg.offset + seg.size = n

/-- A memory block after any calls of `write_block`, which skips the empty segments. -/
inductive Built (flags : Flags) (segments : SegmentRef → BlockSegment) (n : Nat) :
    MemBlockItem → Prop
  | new (state : BlockState) : Built flags segments n (MemBlockItem.new flags state)
  | write {block block' : MemBlockItem} {refs : List SegmentRef} : Built flags segments n block →
      (∀ g ∈ refs, (segments g).buf.length ≠ 0 → Placed flags n (segments g)) →
      refs.foldlM (MemCache.writeSegment flags segments) block = some block' →
      Built flags segments n block'

/-- Where two slices next to each other are of different segments, the first segment ends where
the second one starts; not asked behind a slice whose segment ends the block. -/
def Seamless (segments : SegmentRef → BlockSegment) (n : Nat) (slices : List (Option SegmentRef)) :
    Prop :=
  ∀ i g g', slices[i]? = some (some g) → slices[i + 1]? = some (some g') → g ≠ g' →
    (∃ j ≤ i, ∃ e, slices[j]? = some (some e) ∧ (segments e).offset + (segments e).size = n) ∨
      (segments g).offset + (segments g).size = (segments g').offset

section Map

variable {flags : Flags} {segments : SegmentRef → BlockSegment} {n : Nat}

/-- The slices of a segment in use are in the block, and none of them is null. -/
def Spread (flags : Flags) (segments : SegmentRef → BlockSegment) (n : Nat)
    (slices : List (Option SegmentRef)) : Prop :=
  ∀ k g, slices[k]? = some (some g) → Placed flags n (segments g) ∧ (segments g).Covers flags k ∧
    ∀ k', (segments g).Covers flags k' → Resident slices k'

theorem i32_natCast {q : Nat} (hq : q < 4294967296) :
    i32 q = if q < 2147483648 then (q : Int) else q - 4294967296 := by
  unfold i32
  rw [Int.bmod_def]
  split <;> split <;> omega

/-- A write sets the slices that the segment covers, or, when an index does not fit its type,
none. -/
theorem writeSegment_cases {block block' : MemBlockItem} {g : SegmentRef}
    (hplaced : Placed flags n (segments g)) (hbuf : (segments g).buf.length ≠ 0)
    (h : MemCache.writeSegment flags segments block g = some block') :
    block' = block ∨ ∀ k, block'.slices[k]? =
      if (segments g).Covers flags k then some (some g) else block.slices[k]? := by
  have hpos := flags.sliceSize_pos
  have hsize := hplaced.pos
  have hoff := hplaced.offset_lt
  have hsz := hplaced.size_lt
  have hfill := @getElem?_fillSlices flags (segments g) hplaced.aligned hsize block.slices g
  have hstart : off2slice flags (segments g).offset =
      i32 ((segments g).offset / flags.sliceSize : Nat) := by
    unfold off2slice
    rw [u64_of_lt (by omega)]
  have hend : u32 ((segments g).offset + (segments g).size - 1) =
      ((segments g).offset + (segments g).size - 1) % 4294967296 := by
    rw [show ((segments g).offset + (segments g).size - 1 : Int) =
      ((segments g).offset + (segments g).size - 1 : Nat) by omega]
    exact u32_natCast _
  have hstop : off2slice flags (u32 ((segments g).offset + (segments g).size - 1)) =
      i32 (((segments g).offset + (segments g).size - 1) % 4294967296 / flags.sliceSize : Nat) := by
    unfold off2slice
    rw [hend, u64_of_lt (by omega)]
  have hq := Nat.lt_of_le_of_lt (Nat.div_le_self (segments g).offset flags.sliceSize) hoff
  have hq' := Nat.lt_of_le_of_lt (Nat.div_le_self
    (((segments g).offset + (segments g).size - 1) % 4294967296) flags.sliceSize)
    (Nat.mod_lt _ (by decide))
  unfold MemCache.writeSegment MemBlockItem.setBlockSegment at h
  dsimp only at h
  rw [if_neg hbuf, hstart, hstop] at h
  have hfirst := i32_natCast hq
  have hlast := i32_natCast hq'
  generalize i32 ((segments g).offset / flags.sliceSize : Nat) = first at h hfirst
  generalize i32 (_ % 4294967296 / flags.sliceSize : Nat) = last at h hlast
  split at h
  next =>
    cases h
    exact Or.inl rfl
  next hle =>
    split at h
    next hin =>
      cases h
      right
      have hfit : (segments g).offset / flags.sliceSize < 2147483648 := by
        by_contra hge
        rw [if_neg hge] at hfirst
        omega
      rw [if_pos hfit] at hfirst
      have hfit' : ((segments g).offset + (segments g).size - 1) % 4294967296 / flags.sliceSize <
          2147483648 := by
        by_contra hge
        rw [if_neg hge] at hlast
        omega
      rw [if_pos hfit'] at hlast
      -- a wrapped end lies before the start
      have hwrap : (segments g).offset + (segments g).size - 1 < 4294967296 := by
        by_contra hge
        obtain ⟨m, hm⟩ := hplaced.aligned
        have hless : ((segments g).offset + (segments g).size - 1) % 4294967296 / flags.sliceSize <
            (segments g).offset / flags.sliceSize := by
          rw [hm, Nat.mul_div_cancel_left m hpos]
          apply Nat.div_lt_of_lt_mul
          omega
        omega
      rw [Nat.mod_eq_of_lt hwrap] at hlast
      subst hfirst hlast
      intro k
      exact hfill (by omega) k
    next => cases h

theorem Spread.new (state : BlockState) : Spread flags segments n (MemBlockItem.new flags state).slices := by
  intro k g hg
  have hmem := List.mem_of_getElem? hg
  unfold MemBlockItem.new at hmem
  rw [List.mem_replicate] at hmem
  cases hmem.2

theorem Spread.writeSegment {block block' : MemBlockItem} {g : SegmentRef}
    (hspread : Spread flags segments n block.slices)
    (hplaced : (segments g).buf.length ≠ 0 → Placed flags n (segments g))
    (h : MemCache.writeSegment flags segments block g = some block') :
    Spread flags segments n block'.slices := by
  by_cases hbuf : (segments g).buf.length = 0
  · unfold MemCache.writeSegment at h
    rw [if_pos hbuf] at h
    cases h
    exact hspread
  cases writeSegment_cases (hplaced hbuf) hbuf h with
  | inl hsame =>
      rw [hsame]
      exact hspread
  | inr hset =>
      have hkeep : ∀ k, (segments g).Covers flags k ∨ Resident block.slices k →
          Resident block'.slices k := by
        intro k hk
        unfold Resident at hk ⊢
        rw [hset]
        by_cases hcov : (segments g).Covers flags k
        · exact ⟨g, if_pos hcov⟩
        · rw [if_neg hcov]
          exact hk.resolve_left hcov
      intro k g' hg'
      rw [hset] at hg'
      by_cases hcov : (segments g).Covers flags k
      · rw [if_pos hcov] at hg'
        cases hg'
        exact ⟨hplaced hbuf, hcov, fun k' hk' => hkeep k' (Or.inl hk')⟩
      · rw [if_neg hcov] at hg'
        obtain ⟨hplaced', hcov', hall⟩ := hspread k g' hg'
        exact ⟨hplaced', hcov', fun k' hk' => hkeep k' (Or.inr (hall k' hk'))⟩

theorem Spread.writeSegments {refs : List SegmentRef} {block block' : MemBlockItem}
    (hspread : Spread flags segments n block.slices)
    (hplaced : ∀ g ∈ refs, (segments g).buf.length ≠ 0 → Placed flags n (segments g))
    (h : refs.foldlM (MemCache.writeSegment flags segments) block = some block') :
    Spread flags segments n block'.slices := by
  induction refs generalizing block with
  | nil =>
      cases h
      exact hspread
  | cons g rest ih =>
      rw [List.foldlM_cons] at h
      obtain ⟨block₁, hfirst, hrest⟩ := Option.bind_eq_some_iff.mp h
      apply ih (hspread.writeSegment (hplaced g List.mem_cons_self) hfirst) _ hrest
      intro g' hg'
      exact hplaced g' (List.mem_cons_of_mem _ hg')

theorem Built.spread {block : MemBlockItem} (h : Built flags segments n block) :
    Spread flags segments n block.slices := by
  induction h with
  | new state => exact Spread.new state
  | write _ hplaced hwrite ih => exact ih.writeSegments hplaced hwrite

/-- The sum never reaches a null slice. -/
theorem Spread.sum_le {block : MemBlockItem} (h : Spread flags segments n block.slices) :
    ∀ k, k * flags.sliceSize < continuousSegmentsSize (block.listSegments.map segments) 0 →
      Resident block.slices k := by
  apply continuous_resident
  · intro g hg
    obtain ⟨k, hk⟩ := List.mem_iff_getElem?.mp ((mem_listSegments block.slices block.state g).mp hg)
    exact (h k g hk).2.2
  · intro k hk
    exact absurd hk (Nat.not_lt_zero _)

/-! ## The sum over the slices -/

/-- The segments that the slices add behind the segment listed last. -/
def listed (last : Option SegmentRef) : List (Option SegmentRef) → List SegmentRef
  | [] => []
  | none :: rest => listed last rest
  | some g :: rest => if last = some g then listed last rest else g :: listed (some g) rest

theorem foldl_collectSegments (slices : List (Option SegmentRef)) (acc : List SegmentRef) :
    slices.foldl MemBlockItem.collectSegments acc = acc ++ listed acc.getLast? slices := by
  induction slices generalizing acc with
  | nil => simp [listed]
  | cons x rest ih =>
      rw [List.foldl_cons, ih]
      cases x with
      | none => rfl
      | some g =>
          have hcollect : MemBlockItem.collectSegments acc (some g) =
              if acc.getLast? = some g then acc else acc ++ [g] := rfl
          have hlisted : listed acc.getLast? (some g :: rest) =
              if acc.getLast? = some g then listed acc.getLast? rest
              else g :: listed (some g) rest := rfl
          rw [hcollect, hlisted]
          by_cases hlast : acc.getLast? = some g
          · rw [if_pos hlast, if_pos hlast]
          · rw [if_neg hlast, if_neg hlast, List.getLast?_concat, List.append_assoc]
            rfl

theorem mem_listed {last : Option SegmentRef} {slices : List (Option SegmentRef)} {g : SegmentRef}
    (h : g ∈ listed last slices) : some g ∈ slices := by
  induction slices generalizing last with
  | nil => cases h
  | cons x rest ih =>
      cases x with
      | none => exact List.mem_cons_of_mem _ (ih h)
      | some g' =>
          unfold listed at h
          split at h
          next => exact List.mem_cons_of_mem _ (ih h)
          next =>
            cases List.mem_cons.mp h with
            | inl heq => exact heq ▸ List.mem_cons_self
            | inr hmem => exact List.mem_cons_of_mem _ (ih hmem)

/-- Behind the end of the block the sum stands, since every segment starts before it. -/
theorem sum_end {last : Option SegmentRef} {slices : List (Option SegmentRef)}
    (h : ∀ (i : Nat) (g : SegmentRef), slices[i]? = some (some g) → Placed flags n (segments g)) :
    continuousSegmentsSize ((listed last slices).map segments) n = n := by
  cases hlisted : listed last slices with
  | nil => rfl
  | cons g rest =>
      have hmem : g ∈ listed last slices := hlisted ▸ List.mem_cons_self
      obtain ⟨i, hi⟩ := List.mem_iff_getElem?.mp (mem_listed hmem)
      have hpos := (h i g hi).pos
      have hfits := (h i g hi).fits
      rw [List.map_cons, continuousSegmentsSize, if_pos (by omega)]

/-- The first two slices, and the slices from the second one on. -/
theorem seamless_cons {g g' : SegmentRef} {rest : List (Option SegmentRef)}
    (hopen : (segments g).offset + (segments g).size ≠ n) :
    Seamless segments n (some g :: some g' :: rest) ↔
      (g ≠ g' → (segments g).offset + (segments g).size = (segments g').offset) ∧
        Seamless segments n (some g' :: rest) := by
  constructor
  · intro h
    constructor
    · intro hne
      cases h 0 g g' rfl rfl hne with
      | inl hend =>
          obtain ⟨j, hj, e, he, hend⟩ := hend
          obtain rfl := Nat.le_zero.mp hj
          cases he
          exact absurd hend hopen
      | inr hmeet => exact hmeet
    · intro i x y hx hy hne
      cases h (i + 1) x y hx hy hne with
      | inl hend =>
          obtain ⟨j, hj, e, he, hend⟩ := hend
          cases j with
          | zero =>
              cases he
              exact absurd hend hopen
          | succ j => exact Or.inl ⟨j, Nat.le_of_succ_le_succ hj, e, he, hend⟩
      | inr hmeet => exact Or.inr hmeet
  · intro h
    obtain ⟨hfirst, hrest⟩ := h
    intro i x y hx hy hne
    cases i with
    | zero =>
        cases hx
        cases hy
        exact Or.inr (hfirst hne)
    | succ i =>
        cases hrest i x y hx hy hne with
        | inl hend =>
            obtain ⟨j, hj, e, he, hend⟩ := hend
            exact Or.inl ⟨j + 1, Nat.succ_le_succ hj, e, he, hend⟩
        | inr hmeet => exact Or.inr hmeet

theorem seamless_end {g : SegmentRef} {rest : List (Option SegmentRef)}
    (hend : (segments g).offset + (segments g).size = n) :
    Seamless segments n (some g :: rest) := by
  intro i _ _ _ _ _
  exact Or.inl ⟨0, Nat.zero_le i, g, rfl, hend⟩

/-- A segment that does not end the block covers its last slice up to the next one. -/
theorem Placed.next_slice {seg : BlockSegment} {k : Nat} (h : Placed flags n seg)
    (hcov : seg.Covers flags k) (hopen : seg.offset + seg.size ≠ n) :
    (k + 1) * flags.sliceSize ≤ seg.offset + seg.size ∧ seg.offset + seg.size < n := by
  obtain ⟨m, hm⟩ := h.ends.resolve_right hopen
  have hlt := hcov.2
  rw [hm, Nat.mul_comm flags.sliceSize] at hlt
  have hle := Nat.mul_le_mul_right flags.sliceSize (Nat.lt_of_mul_lt_mul_right hlt)
  rw [Nat.mul_comm m, ← hm] at hle
  exact ⟨hle, Nat.lt_of_le_of_ne h.fits hopen⟩

/-- From slice `k` of a full block on, with its segment listed and the sum at its end. -/
theorem sum_iff {rest : List (Option SegmentRef)} {g : SegmentRef} {k : Nat}
    (hmap : ∀ i e, (some g :: rest)[i]? = some (some e) →
      Placed flags n (segments e) ∧ (segments e).Covers flags (k + i))
    (hfull : ∀ i, (k + i) * flags.sliceSize < n → ∃ e, (some g :: rest)[i]? = some (some e))
    (hopen : (segments g).offset + (segments g).size ≠ n) :
    continuousSegmentsSize ((listed (some g) rest).map segments)
        ((segments g).offset + (segments g).size) = n ↔
      Seamless segments n (some g :: rest) := by
  induction rest generalizing g k with
  | nil =>
      obtain ⟨hplaced, hcov⟩ := hmap 0 g rfl
      obtain ⟨hnext, hlt⟩ := hplaced.next_slice hcov hopen
      obtain ⟨e, he⟩ := hfull 1 (Nat.lt_of_le_of_lt hnext hlt)
      cases he
  | cons x rest ih =>
      obtain ⟨hplaced, hcov⟩ := hmap 0 g rfl
      obtain ⟨hnext, hlt⟩ := hplaced.next_slice hcov hopen
      obtain ⟨g', hg'⟩ := hfull 1 (Nat.lt_of_le_of_lt hnext hlt)
      cases hg'
      obtain ⟨hplaced', hcov'⟩ := hmap 1 g' rfl
      have hmap' : ∀ i e, (some g' :: rest)[i]? = some (some e) →
          Placed flags n (segments e) ∧ (segments e).Covers flags (k + 1 + i) := by
        intro i e he
        rw [Nat.add_assoc, Nat.add_comm 1 i]
        exact hmap (i + 1) e he
      have hfull' : ∀ i, (k + 1 + i) * flags.sliceSize < n →
          ∃ e, (some g' :: rest)[i]? = some (some e) := by
        intro i hi
        rw [Nat.add_assoc, Nat.add_comm 1 i] at hi
        exact hfull (i + 1) hi
      rw [seamless_cons hopen]
      have hlisted : listed (some g) (some g' :: rest) =
          if some g = some g' then listed (some g) rest else g' :: listed (some g') rest := rfl
      rw [hlisted]
      by_cases hsame : g = g'
      · subst hsame
        rw [if_pos rfl, ih hmap' hfull' hopen]
        constructor
        · intro h
          exact ⟨fun hne => absurd rfl hne, h⟩
        · intro h
          exact h.2
      · rw [if_neg (fun heq => hsame (Option.some.inj heq)), List.map_cons, continuousSegmentsSize]
        by_cases hmeet : (segments g').offset = (segments g).offset + (segments g).size
        · rw [if_neg (not_not.mpr hmeet), ← hmeet]
          have hcut : g ≠ g' → (segments g).offset + (segments g).size = (segments g').offset :=
            fun _ => hmeet.symm
          by_cases hend : (segments g').offset + (segments g').size = n
          · rw [hend, sum_end fun i e he => (hmap (i + 2) e he).1]
            exact ⟨fun _ => ⟨fun _ => rfl, seamless_end hend⟩, fun _ => rfl⟩
          · rw [ih hmap' hfull' hend]
            exact ⟨fun h => ⟨fun _ => rfl, h⟩, fun h => h.2⟩
        · rw [if_pos hmeet]
          constructor
          · intro h
            exact absurd h hopen
          · intro h
            exact absurd (h.1 hsame).symm hmeet

/-- A full block passes the test exactly when its segments meet. -/
theorem full_sum_iff {block : MemBlockItem} (h : Spread flags segments n block.slices)
    (hfull : ∀ k, k * flags.sliceSize < n → Resident block.slices k) :
    continuousSegmentsSize (block.listSegments.map segments) 0 = n ↔
      Seamless segments n block.slices := by
  unfold MemBlockItem.listSegments
  rw [foldl_collectSegments, List.nil_append, List.getLast?_nil]
  rcases Nat.eq_zero_or_pos n with hzero | hpos
  · have hnone : ∀ (k : Nat) (g : SegmentRef), block.slices[k]? ≠ some (some g) := by
      intro k g hg
      obtain ⟨hplaced, _⟩ := h k g hg
      have := hplaced.pos
      have := hplaced.fits
      omega
    have hempty : listed none block.slices = [] := by
      apply List.eq_nil_iff_forall_not_mem.mpr
      intro g hg
      obtain ⟨k, hk⟩ := List.mem_iff_getElem?.mp (mem_listed hg)
      exact hnone k g hk
    rw [hempty, hzero]
    constructor
    · intro _ i g g' hg
      exact absurd hg (hnone i g)
    · intro _
      rfl
  · obtain ⟨g, hg⟩ := hfull 0 (by rw [Nat.zero_mul]; exact hpos)
    cases hslices : block.slices with
    | nil =>
        rw [hslices] at hg
        cases hg
    | cons x rest =>
        rw [hslices] at hg
        cases hg
        rw [hslices] at h
        have hmap : ∀ i e, (some g :: rest)[i]? = some (some e) →
            Placed flags n (segments e) ∧ (segments e).Covers flags (0 + i) := by
          intro i e he
          rw [Nat.zero_add]
          exact ⟨(h i e he).1, (h i e he).2.1⟩
        obtain ⟨hplaced, hcov⟩ := hmap 0 g rfl
        have hstart : (segments g).offset = 0 := by
          have := hcov.1
          omega
        have hsum : continuousSegmentsSize ((listed none (some g :: rest)).map segments) 0 =
            continuousSegmentsSize ((listed (some g) rest).map segments)
              ((segments g).offset + (segments g).size) := by
          have hlisted : listed none (some g :: rest) = g :: listed (some g) rest := rfl
          rw [hlisted, List.map_cons, continuousSegmentsSize, hstart, if_neg (not_not.mpr rfl)]
        rw [hsum]
        by_cases hend : (segments g).offset + (segments g).size = n
        · rw [hend, sum_end fun i e he => (hmap (i + 1) e he).1]
          exact ⟨fun _ => seamless_end hend, fun _ => rfl⟩
        · apply sum_iff (k := 0) hmap _ hend
          intro i hi
          rw [Nat.zero_add] at hi
          rw [← hslices]
          exact hfull i hi

end Map

/-! ## Segments that do not overlap -/

section Apart

variable {flags : Flags} {bytes : IOBuf} {segments : SegmentRef → BlockSegment}
  {slices : List (Option SegmentRef)}

theorem SegmentOk.placed {seg : BlockSegment} (h : SegmentOk flags bytes seg)
    (hlen : bytes.length < 4294967296) : Placed flags bytes.length seg := by
  have hpos := h.pos
  have hfits := h.fits
  exact ⟨by omega, by omega, h.aligned, hpos, hfits, h.ends⟩

theorem SlicesOk.spread (h : SlicesOk flags bytes (fun _ => True) segments slices)
    (hlen : bytes.length < 4294967296) : Spread flags segments bytes.length slices := by
  intro k g hg
  obtain ⟨_, hcov, hall⟩ := h.segment k g hg
  exact ⟨(h.segmentOk hg fun _ _ => trivial).placed hlen, hcov, fun k' hk' => ⟨g, hall k' hk'⟩⟩

/-- A segment that reached into the next slice, or one that began before its first slice, would
be found there. -/
theorem SlicesOk.seamless (h : SlicesOk flags bytes (fun _ => True) segments slices)
    (hlen : bytes.length < 4294967296) : Seamless segments bytes.length slices := by
  intro i g g' hg hg' hne
  obtain ⟨_, hcov, hall⟩ := h.segment i g hg
  obtain ⟨hseg', hcov', hall'⟩ := h.segment (i + 1) g' hg'
  have hseg := h.segmentOk hg fun _ _ => trivial
  by_cases hend : (segments g).offset + (segments g).size = bytes.length
  · exact Or.inl ⟨i, Nat.le_refl i, g, hg, hend⟩
  right
  have hstop : (segments g).offset + (segments g).size = (i + 1) * flags.sliceSize := by
    apply Nat.le_antisymm _ ((hseg.placed hlen).next_slice hcov hend).1
    by_contra hlong
    have hnext : (segments g).Covers flags (i + 1) := by
      have hstart := hcov.1
      refine ⟨?_, Nat.not_le.mp hlong⟩
      rw [Nat.succ_mul]
      omega
    have := (hall (i + 1) hnext).symm.trans hg'
    exact hne (Option.some.inj (Option.some.inj this))
  have hstart : (segments g').offset = (i + 1) * flags.sliceSize := by
    apply Nat.le_antisymm hcov'.1
    by_contra hearly
    obtain ⟨m, hm⟩ := hseg'.aligned
    have hbefore : (segments g').Covers flags i := by
      have hlast := hcov'.2
      rw [Nat.succ_mul] at hlast
      refine ⟨?_, by omega⟩
      rw [hm, Nat.mul_comm flags.sliceSize] at hearly ⊢
      apply Nat.mul_le_mul_right
      exact Nat.le_of_lt_succ (Nat.lt_of_mul_lt_mul_right (Nat.not_le.mp hearly))
    have := hg.symm.trans (hall' i hbefore)
    exact hne (Option.some.inj (Option.some.inj this))
  rw [hstop, hstart]

/-- The test takes a block that is in memory as a whole for full. -/
theorem SlicesOk.full {block : MemBlockItem}
    (h : SlicesOk flags bytes (fun _ => True) segments block.slices)
    (hlen : bytes.length < 4294967296)
    (hfull : ∀ k, k * flags.sliceSize < bytes.length → Resident block.slices k) :
    continuousSegmentsSize (block.listSegments.map segments) 0 = bytes.length :=
  (full_sum_iff (h.spread hlen) hfull).mpr (h.seamless hlen)

end Apart

/-! ## The test -/

/-- The test takes a block for full exactly when no slice is null, if a slice is null or the
segments meet, and only then. -/
theorem fullness_test_iff {flags : Flags} {segments : SegmentRef → BlockSegment} {n : Nat}
    {block : MemBlockItem} (h : Built flags segments n block) :
    (continuousSegmentsSize (block.listSegments.map segments) 0 = n ↔
      ∀ k, k * flags.sliceSize < n → Resident block.slices k) ↔
    (∃ k, k * flags.sliceSize < n ∧ ¬ Resident block.slices k) ∨
      Seamless segments n block.slices := by
  have hspread := h.spread
  by_cases hfull : ∀ k, k * flags.sliceSize < n → Resident block.slices k
  · have hnone : ¬ ∃ k, k * flags.sliceSize < n ∧ ¬ Resident block.slices k := by
      intro hhole
      obtain ⟨k, hk, hnull⟩ := hhole
      exact hnull (hfull k hk)
    rw [or_iff_right hnone, ← full_sum_iff hspread hfull]
    exact ⟨fun h => h.mpr hfull, fun h => ⟨fun _ => hfull, fun _ => h⟩⟩
  · constructor
    · intro _
      left
      obtain ⟨k, hk⟩ := not_forall.mp hfull
      exact ⟨k, Classical.not_imp.mp hk⟩
    · intro _
      constructor
      · intro hsum k hk
        rw [← hsum] at hk
        exact hspread.sum_le k hk
      · intro hall
        exact absurd hall hfull

/-- Two segments that meet. -/
theorem fullness_test_meeting :
    let segments : SegmentRef → BlockSegment := fun g =>
      if g = 0 then ⟨0, 2, [1, 2]⟩ else ⟨2, 2, [3, 4]⟩
    let slices : List (Option SegmentRef) := [some 0, some 1]
    (continuousSegmentsSize ((MemBlockItem.mk slices .dirty).listSegments.map segments) 0 = 4 ↔
        ∀ k, k * Flags.small.sliceSize < 4 → Resident slices k) ↔
      (∃ k, k * Flags.small.sliceSize < 4 ∧ ¬ Resident slices k) ∨ Seamless segments 4 slices := by
  intro segments slices
  have hplaced : ∀ g, Placed Flags.small 4 (segments g) := by
    intro g
    by_cases hg : g = 0
    · have hseg : segments g = ⟨0, 2, [1, 2]⟩ := if_pos hg
      rw [hseg]
      exact ⟨by simp, by simp, by decide, by simp, by simp, Or.inl (by decide)⟩
    · have hseg : segments g = ⟨2, 2, [3, 4]⟩ := if_neg hg
      rw [hseg]
      exact ⟨by simp, by simp, by decide, by simp, by simp, Or.inl (by decide)⟩
  apply fullness_test_iff
  apply @Built.write _ _ _ _ _ [0, 1] (Built.new .dirty) (fun g _ _ => hplaced g)
  decide +kernel

/-- A segment of the whole block and a later one over its first half: the block is full, and the
sum stops at the first half. -/
theorem full_block_fails_test :
    ¬ ∀ (flags : Flags) (segments : SegmentRef → BlockSegment) (n : Nat) (block : MemBlockItem),
      Built flags segments n block →
      (continuousSegmentsSize (block.listSegments.map segments) 0 = n ↔
        ∀ k, k * flags.sliceSize < n → Resident block.slices k) := by
  intro hall
  have hbuilt : Built Flags.small (fun g => if g = 0 then ⟨0, 4, [1, 2, 3, 4]⟩ else ⟨0, 2, [1, 2]⟩) 4
      ⟨[some 1, some 0], .dirty⟩ := by
    have hplaced : ∀ g : SegmentRef, Placed Flags.small 4
        (if g = 0 then ⟨0, 4, [1, 2, 3, 4]⟩ else ⟨0, 2, [1, 2]⟩) := by
      intro g
      by_cases hg : g = 0
      · rw [if_pos hg]
        exact ⟨by simp, by simp, by decide, by simp, by simp, Or.inl (by decide)⟩
      · rw [if_neg hg]
        exact ⟨by simp, by simp, by decide, by simp, by simp, Or.inl (by decide)⟩
    apply @Built.write _ _ _ _ _ [0, 1] (Built.new .dirty) (fun g _ _ => hplaced g)
    decide +kernel
  have hsum := (hall _ _ _ _ hbuilt).mpr
  have hfull : ∀ k, k * Flags.small.sliceSize < 4 →
      Resident [some (1 : SegmentRef), some 0] k := by
    intro k hk
    have hlt : k * 2 < 4 := hk
    rcases (by omega : k = 0 ∨ k = 1) with hk | hk
    · rw [hk]
      exact ⟨1, rfl⟩
    · rw [hk]
      exact ⟨0, rfl⟩
  exact absurd (hsum hfull) (by decide)

end StarCache
