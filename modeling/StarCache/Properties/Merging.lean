import StarCache.Refinement.Runs

/-!
# Merging memory and disk

`_read_block` over any slice map whose segments hold the bytes of the block. What is missing in
memory is read from disk, in maximal parts and in order, and handed to promotion; without a disk
block the range is answered only when nothing is missing.
-/

namespace StarCache

open Prog MachineInt StarCacheImpl

/-- The segment holds slice `k` of the block up to the end of the slice or of the block. Behind its
size the buffer may be padded. -/
structure Backs (flags : Flags) (bytes : IOBuf) (k : Nat) (seg : BlockSegment) : Prop where
  aligned : flags.sliceSize ∣ seg.offset
  long : seg.size ≤ seg.buf.length
  content : ∀ p < seg.size, seg.buf[p]? = bytes[seg.offset + p]?
  start : seg.offset ≤ k * flags.sliceSize
  stop : (k + 1) * flags.sliceSize ≤ seg.offset + seg.size ∨ seg.offset + seg.size = bytes.length

/-- From `a` to `b` no slice is in memory, and a slice next to it is, unless the range ends there. -/
structure MaximalGap (flags : Flags) (slices : List (Option SegmentRef)) (lo hi a b : Nat) :
    Prop where
  le : lo ≤ a
  lt : a < b
  fits : b ≤ hi
  aligned : flags.sliceSize ∣ a
  gap : Gap flags slices a b
  before : a = lo ∨ ∃ k, (k + 1) * flags.sliceSize = a ∧ Resident slices k
  after : b = hi ∨ ∃ k, k * flags.sliceSize = b ∧ Resident slices k

section Aside

variable {pf : Platform} {s t u : State}

/-- What a read changes besides its result: the clock, the locks, the local references and the
eviction policies. -/
structure Aside (pf : Platform) (s t : State) : Prop where
  eq : t = { s with
    clock := t.clock
    memTracker := t.memTracker
    diskTracker := t.diskTracker
    memHandles := t.memHandles
    diskHandles := t.diskHandles
    locals := t.locals
    locks := t.locks }
  clock : s.clock ≤ t.clock
  tracker : s.diskTracker.Inv pf.cacheIdHash s.diskHandles →
    t.diskTracker.Inv pf.cacheIdHash t.diskHandles

theorem Aside.refl : Aside pf s s := ⟨rfl, Nat.le_refl _, id⟩

theorem Aside.trans (h : Aside pf s t) (h' : Aside pf t u) : Aside pf s u :=
  ⟨by rw [h'.eq, h.eq], h.clock.trans h'.clock, fun hs => h'.tracker (h.tracker hs)⟩

/-- Reads of the disk block succeed, and it holds all bytes of the block; a read may be padded. -/
def Serves (pf : Platform) (bytes : IOBuf) (cacheId : CacheId) (id : BlockId) (s : State) : Prop :=
  ∀ t, Aside pf s t → ∀ lo hi, pf.flags.sliceSize ∣ lo → lo < hi → hi ≤ bytes.length →
    (pf.flags.sliceSize ∣ hi ∨ hi = bytes.length) →
    ∃ st data u, DiskCache.readBlock pf cacheId id lo (hi - lo) t = some ((st, data), u) ∧
      st.ok = true ∧ Aside pf t u ∧ data.take (hi - lo) = (bytes.drop lo).take (hi - lo)

theorem Serves.aside {bytes : IOBuf} {cacheId : CacheId} {id : BlockId}
    (h : Serves pf bytes cacheId id s) (ht : Aside pf s t) : Serves pf bytes cacheId id t :=
  fun u hu => h u (ht.trans hu)

/-- Reads of the disk block answer with a status of `A`, and if they succeed with the bytes; under
`T` they do answer. -/
def Answers (pf : Platform) (bytes : IOBuf) (cacheId : CacheId) (id : BlockId) (T : Prop)
    (A : Status → Prop) (s : State) : Prop :=
  ∀ t, Aside pf s t → ∀ lo hi, SliceRange pf.flags bytes lo hi →
    Spec T (DiskCache.readBlock pf cacheId id lo (hi - lo)) (fun res u => Aside pf t u ∧ A res.1 ∧
      (res.1.ok = true → res.2.take (hi - lo) = (bytes.drop lo).take (hi - lo))) t

theorem Answers.aside {bytes : IOBuf} {cacheId : CacheId} {id : BlockId} {T : Prop}
    {A : Status → Prop} (h : Answers pf bytes cacheId id T A s) (ht : Aside pf s t) :
    Answers pf bytes cacheId id T A t :=
  fun u hu => h u (ht.trans hu)

theorem Serves.answers {bytes : IOBuf} {cacheId : CacheId} {id : BlockId}
    (h : Serves pf bytes cacheId id s) :
    Answers pf bytes cacheId id True (fun st => st.ok = true) s := by
  intro t ht lo hi hrange
  obtain ⟨st, data, u, hread, hok, hu, hdata⟩ := h t ht lo hi hrange.aligned hrange.lt hrange.le
    hrange.ends
  unfold Spec
  rw [hread]
  exact ⟨hu, hok, fun _ => hdata⟩

/-- Whole blocks that are read without failure are served. -/
theorem BlockOnDisk.serves {bytes : IOBuf} {id : BlockId} {n₀ : Nat} (hdata : DataHyp pf)
    (hreads : ReadHyp pf n₀) (hlen : bytes.length ≤ pf.flags.blockSize)
    (hblock : BlockOnDisk pf s bytes id) (hlocated : Located pf.flags s.diskSpace id)
    (hclock : n₀ ≤ s.clock) (htracker : s.diskTracker.Inv pf.cacheIdHash s.diskHandles)
    (cacheId : CacheId) : Serves pf bytes cacheId id s := by
  intro t ht lo hi hlo hlt hhi hend
  have hwhole : BlockOnDisk pf t bytes id := by
    apply hblock.of_eq
    all_goals rw [ht.eq]
  have hplace : Located pf.flags t.diskSpace id := by
    rw [ht.eq]
    exact hlocated
  have hsum : lo + (hi - lo) = hi := by omega
  have hspec : Spec True (DiskCache.readBlock pf cacheId id lo (hi - lo)) (fun r u =>
      DiskCache.DidRead pf t u ∧ (r.1.ok = true → pf.flags.sliceSize ∣ lo) ∧
      (True → r.1.ok = true → SegmentPart pf.flags bytes ⟨lo, hi - lo, r.2⟩ ∨
        (r.2 = [] ∧ 2147483648 ≤ BlockFile.alignedSize pf.flags (hi - lo))) ∧
      (True → r.1.ok = true)) t := by
    apply DiskCache.readBlock_spec bytes (fun _ => hdata) (fun h => h) (fun _ => hreads) cacheId id
      (hclock.trans ht.clock) (ht.tracker htracker)
    · intro _
      rw [hsum]
      exact ⟨hwhole, hlen, by omega, hhi⟩
    · intro _
      exact ⟨trivial, fun _ => hplace⟩
    · intro _
      rw [hsum]
      exact ⟨hlo, hend⟩
  obtain ⟨⟨st, data⟩, u, hread, hdid, _, hgood, hok⟩ := hspec.defined trivial
  have hok := hok trivial
  refine ⟨st, data, u, hread, hok, ?_, ?_⟩
  · refine ⟨?_, hdid.clock, ?_⟩
    · rw [hdid.eq]
    · intro _
      rw [hdid.eq]
      exact hdid.inv
  · have hseg : SegmentPart pf.flags bytes ⟨lo, hi - lo, data⟩ := by
      apply (hgood trivial hok).resolve_right
      intro hempty
      have hle := alignedSize_le hdata hlo (show lo + (hi - lo) ≤ pf.flags.blockSize by omega)
      have := hreads.block_lt
      omega
    exact hseg.take_buf

end Aside

section Map

variable {flags : Flags} {bytes : IOBuf} {segments : SegmentRef → BlockSegment}
  {slices : List (Option SegmentRef)} {lo hi a b a' b' c : Nat}

theorem slicesHold_of_backs (hlength : slices.length = flags.blockSize / flags.sliceSize)
    (h : ∀ k g, slices[k]? = some (some g) → Backs flags bytes k (segments g)) :
    SlicesHold flags bytes slices (fun _ => True) segments := by
  apply slicesHold_whole hlength fun k g hg => (h k g hg).start
  intro k g hg p hlow hhigh hp
  have hback := h k g hg
  have hstart := hback.start
  have hin : p < (segments g).offset + (segments g).size := by
    rcases hback.stop with hstop | hstop
    · omega
    · omega
  rw [hback.content _ (by omega), Nat.add_sub_cancel' (by omega)]

/-- Of two maximal gaps with a common slice the second one does not start later. -/
theorem MaximalGap.le_start {k : Nat} (h : MaximalGap flags slices lo hi a b)
    (h' : MaximalGap flags slices lo hi a' b') (hk : k * flags.sliceSize < b)
    (hk' : a' ≤ k * flags.sliceSize) : a' ≤ a := by
  by_contra hlt
  rw [Nat.not_le] at hlt
  cases h'.before with
  | inl hlo =>
      have := h.le
      omega
  | inr hbefore =>
      obtain ⟨j, hj, hres⟩ := hbefore
      obtain ⟨m, hm⟩ := h.aligned
      rw [Nat.mul_comm] at hm
      have hmj : m < j + 1 := by
        apply Nat.lt_of_mul_lt_mul_right (a := flags.sliceSize)
        omega
      have hle := Nat.mul_le_mul_right flags.sliceSize (Nat.le_of_lt_succ hmj)
      have hjlt : j * flags.sliceSize < b := by
        rw [Nat.succ_mul] at hj
        omega
      exact h.gap j (by omega) hjlt hres

theorem MaximalGap.stop_le {k : Nat} (h : MaximalGap flags slices lo hi a b)
    (h' : MaximalGap flags slices lo hi a' b') (hk : k * flags.sliceSize < b)
    (hk' : a' ≤ k * flags.sliceSize) : b' ≤ b := by
  by_contra hlt
  rw [Nat.not_le] at hlt
  cases h.after with
  | inl hhi =>
      have := h'.fits
      omega
  | inr hafter =>
      obtain ⟨j, hj, hres⟩ := hafter
      exact h'.gap j (by omega) (by omega) hres

theorem MaximalGap.unique {k : Nat} (h : MaximalGap flags slices lo hi a b)
    (h' : MaximalGap flags slices lo hi a' b') (hlow : a ≤ k * flags.sliceSize)
    (hhigh : k * flags.sliceSize < b) (hlow' : a' ≤ k * flags.sliceSize)
    (hhigh' : k * flags.sliceSize < b') : a = a' ∧ b = b' :=
  ⟨Nat.le_antisymm (h'.le_start h hhigh' hlow) (h.le_start h' hhigh hlow'),
    Nat.le_antisymm (h'.stop_le h hhigh' hlow) (h.stop_le h' hhigh hlow')⟩

/-- The range from `lo` to `c` has been read, and of it from disk the maximal gaps. -/
structure Filled (flags : Flags) (bytes : IOBuf) (slices : List (Option SegmentRef)) (lo hi c : Nat)
    (p : ReadProgress) : Prop where
  le : lo ≤ c
  buf : p.buf = (bytes.drop lo).take (c - lo)
  hole : p.holeExist = false
  gaps : ∀ seg ∈ p.diskSegments, MaximalGap flags slices lo hi seg.offset (seg.offset + seg.size)
  behind : ∀ seg ∈ p.diskSegments, seg.offset + seg.size ≤ c
  order : p.diskSegments.Pairwise fun x y => x.offset + x.size < y.offset
  content : ∀ seg ∈ p.diskSegments, seg.buf.take seg.size = (bytes.drop seg.offset).take seg.size
  all : ∀ k, lo ≤ k * flags.sliceSize → k * flags.sliceSize < c → ¬ Resident slices k →
    ∃ seg ∈ p.diskSegments, seg.offset ≤ k * flags.sliceSize ∧
      k * flags.sliceSize < seg.offset + seg.size

/-- The read stands at an end of the range or behind a slice in memory, which no gap reaches. -/
structure Edge (flags : Flags) (slices : List (Option SegmentRef)) (lo hi c : Nat)
    (p : ReadProgress) : Prop where
  cursor : p.cursor = c
  slice : c = lo ∨ c = hi ∨ ∃ k, (k + 1) * flags.sliceSize = c ∧ Resident slices k
  apart : c < hi → ∀ seg ∈ p.diskSegments, seg.offset + seg.size < c

theorem Filled.start (p : ReadProgress) (hbuf : p.buf = []) (hdisk : p.diskSegments = [])
    (hhole : p.holeExist = false) : Filled flags bytes slices lo hi lo p := by
  refine ⟨Nat.le_refl _, ?_, hhole, ?_, ?_, ?_, ?_, ?_⟩
  · rw [hbuf, Nat.sub_self, List.take_zero]
  · rw [hdisk]
    intro seg hseg
    cases hseg
  · rw [hdisk]
    intro seg hseg
    cases hseg
  · rw [hdisk]
    exact List.Pairwise.nil
  · rw [hdisk]
    intro seg hseg
    cases hseg
  · intro k hlow hhigh
    omega

/-- A memory segment follows. -/
theorem Filled.append {p : ReadProgress} {seg : BlockSegment}
    (h : Filled flags bytes slices lo hi seg.offset p) (hcut : IsCut flags bytes seg)
    (hmem : InMemory flags slices seg) :
    Filled flags bytes slices lo hi (seg.offset + seg.buf.length) (p.append seg) := by
  have hle := h.le
  refine ⟨by omega, ?_, h.hole, h.gaps, ?_, h.order, h.content, ?_⟩
  · unfold ReadProgress.append
    dsimp only
    rw [h.buf, append_cut hcut.content h.le]
  · intro x hx
    exact (h.behind x hx).trans (Nat.le_add_right _ _)
  · intro k hlow hhigh hnull
    by_cases hk : k * flags.sliceSize < seg.offset
    · exact h.all k hlow hk hnull
    · exact absurd (hmem k (Nat.not_lt.mp hk) hhigh) hnull

theorem Edge.append {p : ReadProgress} {seg : BlockSegment}
    (hbehind : ∀ x ∈ p.diskSegments, x.offset + x.size ≤ seg.offset) (hcut : IsCut flags bytes seg)
    (hmem : InMemory flags slices seg)
    (hend : flags.sliceSize ∣ seg.offset + seg.buf.length ∨ seg.offset + seg.buf.length = hi) :
    Edge flags slices lo hi (seg.offset + seg.buf.length) (p.append seg) := by
  have hpos := hcut.pos
  refine ⟨?_, ?_, ?_⟩
  · unfold ReadProgress.append
    push_cast
    rfl
  · right
    cases hend with
    | inr hend => exact Or.inl hend
    | inl hend =>
        right
        obtain ⟨m, hm⟩ := hend
        obtain ⟨j, hj⟩ := hcut.aligned
        rw [Nat.mul_comm] at hm hj
        have hjm : j < m := by
          apply Nat.lt_of_mul_lt_mul_right (a := flags.sliceSize)
          omega
        have hm1 : m - 1 + 1 = m := by omega
        have hstep : (m - 1) * flags.sliceSize + flags.sliceSize = m * flags.sliceSize := by
          rw [← Nat.succ_mul, Nat.succ_eq_add_one, hm1]
        refine ⟨m - 1, by rw [hm1, hm], hmem (m - 1) ?_ ?_⟩
        · rw [hj]
          exact Nat.mul_le_mul_right _ (by omega)
        · have hss := flags.sliceSize_pos
          omega
  · intro _ x hx
    have := hbehind x hx
    omega

/-- A read from disk follows. -/
theorem Filled.gap {d : Nat} {p : ReadProgress} {data : IOBuf}
    (h : Filled flags bytes slices lo hi c p) (hedge : Edge flags slices lo hi c p)
    (haligned : flags.sliceSize ∣ c) (hlt : c < d) (hd : d ≤ hi) (hgap : Gap flags slices c d)
    (hafter : d = hi ∨ ∃ k, k * flags.sliceSize = d ∧ Resident slices k)
    (hdata : data.take (d - c) = (bytes.drop c).take (d - c)) :
    Filled flags bytes slices lo hi d { p with
      buf := p.buf ++ data.take (d - c)
      diskSegments := p.diskSegments ++ [⟨c, d - c, data⟩] } := by
  have hle := h.le
  have hdc : c + (d - c) = d := by omega
  have hlast : ∀ seg ∈ p.diskSegments ++ [(⟨c, d - c, data⟩ : BlockSegment)],
      seg ∈ p.diskSegments ∨ seg = ⟨c, d - c, data⟩ := by
    intro seg hseg
    rw [List.mem_append, List.mem_singleton] at hseg
    exact hseg
  refine ⟨by omega, ?_, h.hole, ?_, ?_, ?_, ?_, ?_⟩
  · dsimp only
    rw [h.buf, hdata, take_append_drop bytes h.le (Nat.le_of_lt hlt)]
  · intro seg hseg
    cases hlast seg hseg with
    | inl hold => exact h.gaps seg hold
    | inr hnew =>
        subst hnew
        refine ⟨h.le, by dsimp only; omega, by dsimp only; omega, haligned, ?_, ?_, ?_⟩
        · dsimp only
          rw [hdc]
          exact hgap
        · dsimp only
          rcases hedge.slice with hslice | hslice | hslice
          · exact Or.inl hslice
          · omega
          · exact Or.inr hslice
        · dsimp only
          rw [hdc]
          exact hafter
  · intro seg hseg
    cases hlast seg hseg with
    | inl hold => exact (h.behind seg hold).trans (Nat.le_of_lt hlt)
    | inr hnew =>
        subst hnew
        dsimp only
        omega
  · dsimp only
    rw [List.pairwise_append]
    refine ⟨h.order, List.pairwise_singleton _ _, ?_⟩
    intro x hx y hy
    rw [List.mem_singleton] at hy
    subst hy
    exact hedge.apart (by omega) x hx
  · intro seg hseg
    cases hlast seg hseg with
    | inl hold => exact h.content seg hold
    | inr hnew =>
        subst hnew
        exact hdata
  · intro k hlow hhigh hnull
    by_cases hk : k * flags.sliceSize < c
    · obtain ⟨seg, hseg, hin⟩ := h.all k hlow hk hnull
      exact ⟨seg, List.mem_append_left _ hseg, hin⟩
    · refine ⟨⟨c, d - c, data⟩, List.mem_append_right _ (List.mem_singleton_self _), ?_, ?_⟩
      · exact Nat.not_lt.mp hk
      · dsimp only
        omega

/-- The parts read from disk are the maximal gaps of the whole range. -/
theorem Filled.gaps_iff {p : ReadProgress} (h : Filled flags bytes slices lo hi hi p) :
    MaximalGap flags slices lo hi a b ↔
      ∃ seg ∈ p.diskSegments, seg.offset = a ∧ seg.offset + seg.size = b := by
  constructor
  · intro hgap
    obtain ⟨k, hk⟩ := hgap.aligned
    rw [Nat.mul_comm] at hk
    have hlt := hgap.lt
    have hle := hgap.le
    have hfits := hgap.fits
    have hnull := hgap.gap k (by omega) (by omega)
    obtain ⟨seg, hseg, hlow, hhigh⟩ := h.all k (by omega) (by omega) hnull
    exact ⟨seg, hseg, (h.gaps seg hseg).unique hgap hlow hhigh (by omega) (by omega)⟩
  · intro hseg
    obtain ⟨seg, hseg, ha, hb⟩ := hseg
    rw [← ha, ← hb]
    exact h.gaps seg hseg

end Map

/-! ## The locked part -/

section Locked

variable {rt : Runtime} {s t : State} {bytes : IOBuf} {slices : List (Option SegmentRef)}
  {lo hi c : Nat} {disk : Option BlockId} {b : BlockItem} {key : BlockKey} {size : Nat} {T : Prop}
  {A : Status → Prop}

theorem memTouch_aside {pf : Platform} {key : BlockKey} {α : Type} {m : Prog State α}
    {Q : α → State → Prop} (h : ∀ t, Aside pf s t → Spec True m Q t) :
    Spec True (do
      let handle ← MemCache.evictTouch pf key false
      MemCache.evictRelease handle
      m) Q s := by
  unfold MemCache.evictTouch MemCache.evictRelease tick
  simp only [spec_bind, spec_modifyGet]
  apply spec_ite
  · intro _
    rw [spec_modifyGet, spec_modify]
    apply h
    exact ⟨rfl, Nat.le_succ _, id⟩
  · intro _
    rw [spec_pure, spec_modify]
    apply h
    exact ⟨rfl, Nat.le_succ _, id⟩

theorem memRead_spec {pf : Platform} (hgeo : Geometry pf.flags)
    (hlen : bytes.length ≤ pf.flags.blockSize)
    (hhold : ∀ block, b.memBlockItem = some block →
      SlicesHold pf.flags bytes block.slices (fun _ => True) s.segments)
    (hlo : pf.flags.sliceSize ∣ lo) (hfit : lo + size ≤ bytes.length) :
    Spec True (MemCache.readBlock pf key b.memBlockItem (lo : Nat) size) (fun segs t =>
      Aside pf s t ∧ Tiles pf.flags bytes b.slices lo segs (lo + size) ∧
        ∀ seg ∈ segs, InMemory pf.flags b.slices seg) s := by
  unfold MemCache.readBlock BlockItem.slices
  cases hmem : b.memBlockItem with
  | none =>
      refine ⟨.refl, ⟨Nat.le_add_right _ _, ?_⟩, fun _ hseg => absurd hseg List.not_mem_nil⟩
      intro k _ _ hres
      obtain ⟨g, hg⟩ := hres
      cases hg
  | some block =>
      apply spec_ite
      · intro hzero
        subst hzero
        refine ⟨.refl, ⟨Nat.le_refl _, ?_⟩, fun _ hseg => absurd hseg List.not_mem_nil⟩
        intro k hlow hhigh
        omega
      · intro hsize
        apply memTouch_aside
        intro t ht
        rw [spec_bind, spec_read]
        have hsegments : t.segments = s.segments := by rw [ht.eq]
        obtain ⟨segs, hsegs, htiles, hin⟩ := readSegments_tiles hgeo hlen (hhold block hmem) hlo
          (Nat.pos_of_ne_zero hsize) hfit
        rw [hsegments, hsegs]
        exact ⟨ht, htiles, hin⟩

/-- A read of the gap from the cursor to `d`. -/
theorem readGap_answers {cacheId : CacheId} {id : BlockId} {d sz : Nat} {p : ReadProgress}
    (hA : A .OK) (hanswers : Answers rt.toPlatform bytes cacheId id T A s) (hgeo : Geometry rt.flags)
    (hlen : bytes.length ≤ rt.flags.blockSize) (hcursor : p.cursor = c) (hsz : sz = d - c)
    (hrange : SliceRange rt.flags bytes c d) :
    Spec T (readGap rt cacheId id p sz) (fun res t => Aside rt.toPlatform s t ∧ A res.1 ∧
      ((∃ data, data.take (d - c) = (bytes.drop c).take (d - c) ∧ res = (.OK, { p with
          buf := p.buf ++ data.take (d - c)
          diskSegments := p.diskSegments ++ [⟨c, d - c, data⟩] })) ∨
        (res.1.ok = false ∧ res.2 = p))) s := by
  have hlt := hrange.lt
  have hd := hrange.le
  have hu32 : u32 p.cursor = c := by
    have := hgeo.block_le
    rw [hcursor]
    exact u32_of_lt (by omega)
  subst hsz
  unfold readGap
  rw [spec_bind, hu32]
  apply (hanswers s .refl c d hrange).mono
  intro res u hu
  obtain ⟨hu, hst, hdata⟩ := hu
  apply spec_ite
  · intro hok
    exact ⟨hu, hA, Or.inl ⟨res.2, hdata hok, rfl⟩⟩
  · intro hfail
    exact ⟨hu, hst, Or.inr ⟨Bool.eq_false_iff.mpr hfail, rfl⟩⟩

/-- What the merge has read: up to a hole, or up to a gap at the end. -/
def MergedTo (flags : Flags) (bytes : IOBuf) (slices : List (Option SegmentRef))
    (disk : Option BlockId) (lo hi : Nat) (p : ReadProgress) : Prop :=
  (disk = none ∧ p.diskSegments = [] ∧ p.holeExist = true ∧ ¬ AllResident flags slices lo hi) ∨
    ∃ c, Filled flags bytes slices lo hi c p ∧ Edge flags slices lo hi c p ∧ c ≤ hi ∧
      (flags.sliceSize ∣ c ∨ c = hi) ∧ Gap flags slices c hi ∧ (disk = none → p.diskSegments = [])

/-- The outcome of a part of the read, `G` of its result unless a disk read has failed. -/
def ReadOutcome (pf : Platform) (flags : Flags) (bytes : IOBuf) (slices : List (Option SegmentRef))
    (lo hi : Nat) (A : Status → Prop) (G : ReadProgress → Prop) (s : State)
    (res : Status × ReadProgress) (t : State) : Prop :=
  Aside pf s t ∧ A res.1 ∧ ((res.1 = .OK ∧ G res.2) ∨
    (res.1.ok = false ∧ ∃ c, Filled flags bytes slices lo hi c res.2))

theorem ReadOutcome.aside {pf : Platform} {flags : Flags} {A : Status → Prop} {G : ReadProgress → Prop}
    {u : State} {res : Status × ReadProgress}
    (h : ReadOutcome pf flags bytes slices lo hi A G u res t) (hu : Aside pf s u) :
    ReadOutcome pf flags bytes slices lo hi A G s res t :=
  ⟨hu.trans h.1, h.2⟩

theorem mergeSegments_filled {cacheId : CacheId} (hgeo : Geometry rt.flags)
    (hlen : bytes.length ≤ rt.flags.blockSize) (hhi : hi ≤ bytes.length) {segs : List BlockSegment}
    {p : ReadProgress} (hA : A .OK)
    (hanswers : ∀ id, disk = some id → Answers rt.toPlatform bytes cacheId id T A s)
    (htiles : Tiles rt.flags bytes slices c segs hi)
    (hmem : ∀ seg ∈ segs, InMemory rt.flags slices seg)
    (hfilled : Filled rt.flags bytes slices lo hi c p) (hedge : Edge rt.flags slices lo hi c p)
    (hc : rt.flags.sliceSize ∣ c ∨ c = hi) (hnone : disk = none → p.diskSegments = []) :
    Spec T (mergeSegments rt cacheId disk segs p) (ReadOutcome rt.toPlatform rt.flags bytes slices lo hi
      A (MergedTo rt.flags bytes slices disk lo hi) s) s := by
  induction segs generalizing c p s with
  | nil =>
      refine ⟨.refl, hA, Or.inl ⟨rfl, Or.inr ?_⟩⟩
      exact ⟨c, hfilled, hedge, htiles.1, hc, htiles.2, hnone⟩
  | cons seg rest ih =>
      obtain ⟨hle, hgap, hcut, hend, hrest⟩ := htiles
      have hin := hmem seg List.mem_cons_self
      have hmem' : ∀ x ∈ rest, InMemory rt.flags slices x := fun x hx =>
        hmem x (List.mem_cons_of_mem _ hx)
      have hpos := hcut.pos
      have hbound := hrest.le
      unfold mergeSegments
      apply spec_ite
      · intro hlt
        rw [hedge.cursor, Nat.cast_lt] at hlt
        have haligned := hc.resolve_right (by omega)
        cases disk with
        | none =>
            refine ⟨.refl, hA, Or.inl ⟨rfl, Or.inl ⟨rfl, hnone rfl, rfl, ?_⟩⟩⟩
            intro hall
            obtain ⟨k, hk⟩ := haligned
            rw [Nat.mul_comm] at hk
            have hlow := hfilled.le
            exact hgap k (by omega) (by omega) (hall k (by omega) (by omega))
        | some id =>
            have hsz : u32 (seg.offset - p.cursor) = seg.offset - c := by
              have := hgeo.block_le
              rw [hedge.cursor, ← Int.ofNat_sub hle]
              exact u32_of_lt (by omega)
            rw [spec_bind]
            apply (readGap_answers hA (hanswers id rfl) hgeo hlen hedge.cursor hsz
              ⟨haligned, hlt, by omega, Or.inl hcut.aligned⟩).mono
            intro res u hu
            obtain ⟨haside, hst, hres⟩ := hu
            cases hres with
            | inr hfail =>
                rw [if_neg (Bool.eq_false_iff.mp hfail.1)]
                exact ⟨haside, hst, Or.inr ⟨hfail.1, c, hfail.2 ▸ hfilled⟩⟩
            | inl hok =>
                obtain ⟨data, hdata, hres⟩ := hok
                subst hres
                obtain ⟨k, hk⟩ := hcut.aligned
                rw [Nat.mul_comm] at hk
                have hread := hfilled.gap hedge haligned hlt (by omega) hgap
                  (Or.inr ⟨k, hk.symm, hin k (by omega) (by omega)⟩) hdata
                dsimp only
                rw [if_pos Status.ok_OK]
                apply (ih (fun id' hid => (hanswers id' hid).aside haside) hrest hmem'
                  (hread.append hcut hin) (.append hread.behind hcut hin hend) hend
                  (fun h => absurd h (Option.some_ne_none id))).mono
                intro res t hres
                exact hres.aside haside
      · intro hge
        rw [hedge.cursor, Nat.cast_lt] at hge
        have hat : c = seg.offset := by omega
        subst hat
        exact ih hanswers hrest hmem' (hfilled.append hcut hin)
          (.append hfilled.behind hcut hin hend) hend hnone

/-- A range read to its end, or one of which a part is missing. -/
def Answered (flags : Flags) (bytes : IOBuf) (slices : List (Option SegmentRef))
    (disk : Option BlockId) (lo size : Nat) (p : ReadProgress) : Prop :=
  (Filled flags bytes slices lo (lo + size) (lo + size) p ∧
      (disk = none → AllResident flags slices lo (lo + size))) ∨
    (disk = none ∧ p.diskSegments = [] ∧ ¬ AllResident flags slices lo (lo + size) ∧
      (p.buf.length < size ∨ p.holeExist = true))

/-- Without a disk block everything that has been read was in memory. -/
theorem Filled.allResident {flags : Flags} {p : ReadProgress}
    (h : Filled flags bytes slices lo hi c p) (hnone : p.diskSegments = []) :
    AllResident flags slices lo c := by
  intro k hlow hhigh
  by_contra hnull
  obtain ⟨seg, hseg, _⟩ := h.all k hlow hhigh hnull
  rw [hnone] at hseg
  cases hseg

theorem Filled.length {flags : Flags} {p : ReadProgress} (h : Filled flags bytes slices lo hi c p)
    (hc : c ≤ bytes.length) : p.buf.length = c - lo := by
  have := h.le
  rw [h.buf, List.length_take, List.length_drop]
  omega

theorem readRest_answered {cacheId : CacheId} (hgeo : Geometry rt.flags)
    (hlen : bytes.length ≤ rt.flags.blockSize) (hfit : lo + size ≤ bytes.length)
    (hend : rt.flags.sliceSize ∣ lo + size ∨ lo + size = bytes.length) {p : ReadProgress}
    (hA : A .OK) (hanswers : ∀ id, disk = some id → Answers rt.toPlatform bytes cacheId id T A s)
    (hmerged : MergedTo rt.flags bytes slices disk lo (lo + size) p) :
    Spec T (readRest rt cacheId disk size p) (ReadOutcome rt.toPlatform rt.flags bytes slices lo
      (lo + size) A (Answered rt.flags bytes slices disk lo size) s) s := by
  cases disk with
  | none =>
      refine ⟨.refl, hA, Or.inl ⟨rfl, ?_⟩⟩
      rcases hmerged with ⟨_, hsegs, hhole, hmissing⟩ | ⟨c, hfilled, _, hc, haligned, hgap, hsegs⟩
      · exact Or.inr ⟨rfl, hsegs, hmissing, Or.inr hhole⟩
      · have hres := hfilled.allResident (hsegs rfl)
        by_cases hat : c = lo + size
        · subst hat
          exact Or.inl ⟨hfilled, fun _ => hres⟩
        · right
          refine ⟨rfl, hsegs rfl, ?_, Or.inl ?_⟩
          · intro hall
            obtain ⟨k, hk⟩ := haligned.resolve_right hat
            rw [Nat.mul_comm] at hk
            have hlow := hfilled.le
            exact hgap k (by omega) (by omega) (hall k (by omega) (by omega))
          · rw [hfilled.length (by omega)]
            have := hfilled.le
            omega
  | some id =>
      obtain ⟨c, hfilled, hedge, hc, haligned, hgap, _⟩ :=
        hmerged.resolve_left fun h => absurd h.1 (Option.some_ne_none id)
      have hlow := hfilled.le
      have hbuf := hfilled.length (hc.trans hfit)
      apply spec_ite
      · intro hshort
        rw [hbuf] at hshort
        have hsz : u32 (size - p.buf.length) = lo + size - c := by
          have := hgeo.block_le
          rw [hbuf, ← Int.ofNat_sub hshort.le, u32_of_lt (by omega)]
          omega
        have hat := haligned.resolve_right (by omega)
        apply (readGap_answers hA (hanswers id rfl) hgeo hlen hedge.cursor hsz
          ⟨hat, by omega, hfit, hend⟩).mono
        intro res t hres
        obtain ⟨haside, hst, hres⟩ := hres
        cases hres with
        | inr hfail => exact ⟨haside, hst, Or.inr ⟨hfail.1, c, hfail.2 ▸ hfilled⟩⟩
        | inl hok =>
            obtain ⟨data, hdata, hres⟩ := hok
            subst hres
            refine ⟨haside, hA, Or.inl ⟨rfl, Or.inl ⟨?_, ?_⟩⟩⟩
            · exact hfilled.gap hedge hat (by omega) (Nat.le_refl _) hgap (Or.inl rfl) hdata
            · exact fun h => absurd h (Option.some_ne_none id)
      · intro hlong
        rw [hbuf] at hlong
        have hat : c = lo + size := by omega
        subst hat
        refine ⟨.refl, hA, Or.inl ⟨rfl, Or.inl ⟨hfilled, ?_⟩⟩⟩
        exact fun h => absurd h (Option.some_ne_none id)

theorem readLocked_answered (hgeo : Geometry rt.flags) (hlen : bytes.length ≤ rt.flags.blockSize)
    (hhold : ∀ block, b.memBlockItem = some block →
      SlicesHold rt.flags bytes block.slices (fun _ => True) s.segments) (hA : A .OK)
    (hanswers : ∀ id, b.diskBlockItem = some id →
      Answers rt.toPlatform bytes key.cacheId id T A s)
    (hlo : rt.flags.sliceSize ∣ lo) (hfit : lo + size ≤ bytes.length)
    (hend : rt.flags.sliceSize ∣ lo + size ∨ lo + size = bytes.length) :
    Spec T (readLocked rt key b (lo : Nat) size) (ReadOutcome rt.toPlatform rt.flags bytes b.slices lo
      (lo + size) A (Answered rt.flags bytes b.slices b.diskBlockItem lo size) s) s := by
  unfold readLocked
  rw [spec_bind]
  apply ((memRead_spec hgeo hlen hhold hlo hfit).weaken fun _ => trivial).mono
  intro segs u hu
  obtain ⟨hu, htiles, hmem⟩ := hu
  rw [spec_bind]
  have hstart : Edge rt.flags b.slices lo (lo + size) lo { cursor := (lo : Nat) } :=
    ⟨rfl, Or.inl rfl, fun _ _ hseg => absurd hseg List.not_mem_nil⟩
  apply (mergeSegments_filled hgeo hlen hfit hA (fun id hid => (hanswers id hid).aside hu) htiles
    hmem (.start _ rfl rfl rfl) hstart (Or.inl hlo) (fun _ => rfl)).mono
  intro res v hv
  obtain ⟨hv, hst, hmerged⟩ := hv
  have hboth := hu.trans hv
  cases hmerged with
  | inr hfail =>
      rw [if_neg (Bool.eq_false_iff.mp hfail.1)]
      exact ⟨hboth, hst, Or.inr hfail⟩
  | inl hmerged =>
      rw [hmerged.1, if_pos Status.ok_OK]
      apply (readRest_answered hgeo hlen hfit hend hA
        (fun id hid => (hanswers id hid).aside hboth) hmerged.2).mono
      intro res' t ht
      exact ht.aside hboth

theorem holdAll_aside {pf : Platform} (xs : List Local) :
    ∃ t, forEach xs hold s = some ((), t) ∧ Aside pf s t := by
  induction xs generalizing s with
  | nil => exact ⟨s, rfl, .refl⟩
  | cons x rest ih =>
      obtain ⟨t, hrun, ht⟩ := @ih { s with locals := x :: s.locals }
      refine ⟨t, hrun, Aside.trans ?_ ht⟩
      exact ⟨rfl, Nat.le_refl _, id⟩

/-- `_read_block` goes on with what its locked part has answered. -/
theorem readBlock_goes_on {r : ItemRef} (hblock : s.HasBlock r key.blockIndex b) (offset : Int)
    (options : Option ReadOptions) :
    ∃ u, Aside rt.toPlatform s u ∧ ∀ res t, readLocked rt key b offset size u = some (res, t) →
      readBlock rt r key offset size options s = (do
        let result ← (do
          unlock false key
          if !res.1.ok then pure (res.1, res.2.buf)
          else if res.2.buf.length < size ∨ res.2.holeExist = true then
            pure (⟨ENOENT, "can not read full block from cache"⟩, res.2.buf)
          else do
            let n ← tick
            let s ← read
            when (!res.2.diskSegments.isEmpty &&
                rt.promotionPolicy.checkPromote n s (s.items r) key options)
              (promoteBlockSegments rt r key res.2.diskSegments)
            pure (.OK, res.2.buf))
        modify fun u => { u with locals := s.locals }
        collect rt.toPlatform
        pure result) t := by
  obtain ⟨u, hhold, hu⟩ := @holdAll_aside { s with locks := s.locks ++ [.lock false key] }
    rt.toPlatform
    (b.memBlockItem.toList.map .memBlock ++ b.diskBlockItem.toList.map .diskBlock)
  have hlock : Aside rt.toPlatform s { s with locks := s.locks ++ [.lock false key] } :=
    ⟨rfl, Nat.le_refl _, id⟩
  refine ⟨u, hlock.trans hu, ?_⟩
  intro res t hres
  have hget : getBlock r key.blockIndex { s with locks := s.locks ++ [.lock false key] } =
      some (b, { s with locks := s.locks ++ [.lock false key] }) := by
    have hsome : (s.items r).blocks[key.blockIndex]? = some b := hblock
    unfold getBlock
    rw [bind_of_eq (show Prog.read _ = some (_, _) from rfl)]
    unfold deref
    dsimp only
    rw [hsome]
    rfl
  unfold readBlock scope
  rw [bind_of_eq (show Prog.read s = some (s, s) from rfl)]
  apply bind_congr_left
  rw [bind_of_eq (show lock false key s = some ((), _) from rfl), bind_of_eq hget,
    bind_of_eq hhold, bind_of_eq hres]

end Locked

/-- With a disk block, or with the whole range in memory, `_read_block` answers with the bytes of
the range and hands to promotion the maximal parts that are not in memory, in order; otherwise it
answers that the range is not there. -/
theorem read_block_merges {rt : Runtime} {s : State} {r : ItemRef} {key : BlockKey} {b : BlockItem}
    {bytes : IOBuf} {lo size : Nat} (hgeo : Geometry rt.flags)
    (hlen : bytes.length ≤ rt.flags.blockSize) (hblock : s.HasBlock r key.blockIndex b)
    (hslices : ∀ block, b.memBlockItem = some block →
      block.slices.length = rt.flags.blockSize / rt.flags.sliceSize ∧
        ∀ k g, block.slices[k]? = some (some g) → Backs rt.flags bytes k (s.segments g))
    (hdisk : ∀ id, b.diskBlockItem = some id → Serves rt.toPlatform bytes key.cacheId id s)
    (hlo : rt.flags.sliceSize ∣ lo) (hfit : lo + size ≤ bytes.length)
    (hend : rt.flags.sliceSize ∣ lo + size ∨ lo + size = bytes.length)
    (options : Option ReadOptions) :
    ∃ (p : ReadProgress) (t : State), Aside rt.toPlatform s t ∧
      (b.diskBlockItem ≠ none ∨ AllResident rt.flags b.slices lo (lo + size) →
        p.buf = (bytes.drop lo).take size ∧
        (∀ x y, MaximalGap rt.flags b.slices lo (lo + size) x y ↔
          ∃ seg ∈ p.diskSegments, seg.offset = x ∧ seg.offset + seg.size = y) ∧
        p.diskSegments.Pairwise (fun (x y : BlockSegment) => x.offset + x.size < y.offset) ∧
        (∀ seg ∈ p.diskSegments,
          seg.buf.take seg.size = (bytes.drop seg.offset).take seg.size) ∧
        readBlock rt r key (lo : Nat) size options s = (do
          let result ← (do
            unlock false key
            let n ← tick
            let u ← read
            when (!p.diskSegments.isEmpty &&
                rt.promotionPolicy.checkPromote n u (u.items r) key options)
              (promoteBlockSegments rt r key p.diskSegments)
            pure (Status.OK, p.buf))
          modify fun u => { u with locals := s.locals }
          collect rt.toPlatform
          pure result) t ∧
        ∀ reply u, readBlock rt r key (lo : Nat) size options s = some (reply, u) →
          reply = (.OK, (bytes.drop lo).take size)) ∧
      (b.diskBlockItem = none ∧ ¬ AllResident rt.flags b.slices lo (lo + size) →
        readBlock rt r key (lo : Nat) size options s = (do
          let result ← (do
            unlock false key
            pure ((⟨ENOENT, "can not read full block from cache"⟩ : Status), p.buf))
          modify fun u => { u with locals := s.locals }
          collect rt.toPlatform
          pure result) t ∧
        ∀ reply u, readBlock rt r key (lo : Nat) size options s = some (reply, u) →
          reply.1 = ⟨ENOENT, "can not read full block from cache"⟩) := by
  obtain ⟨u, hu, hgoes⟩ := @readBlock_goes_on rt s b key size r hblock (lo : Nat) options
  have hsegments : u.segments = s.segments := by rw [hu.eq]
  have hhold : ∀ block, b.memBlockItem = some block →
      SlicesHold rt.flags bytes block.slices (fun _ => True) u.segments := by
    intro block hmem
    rw [hsegments]
    exact slicesHold_of_backs (hslices block hmem).1 (hslices block hmem).2
  obtain ⟨⟨st, p⟩, t, hrun, ht, hst, hres⟩ := (readLocked_answered hgeo hlen hhold Status.ok_OK
    (fun id hid => ((hdisk id hid).aside hu).answers) hlo hfit hend).defined trivial
  have heq := hgoes _ _ hrun
  dsimp only at hst hres heq
  obtain ⟨hok, hanswer⟩ := hres.resolve_right fun h => absurd hst (Bool.eq_false_iff.mp h.1)
  subst hok
  refine ⟨p, t, hu.trans ht, ?_, ?_⟩
  · intro hat
    have hfilled : Filled rt.flags bytes b.slices lo (lo + size) (lo + size) p := by
      rcases hanswer with ⟨hfilled, _⟩ | ⟨hnone, _, hmissing, _⟩
      · exact hfilled
      · exact absurd hmissing (not_not.mpr (hat.resolve_left (not_not.mpr hnone)))
    have hlength := hfilled.length hfit
    have hbuf : p.buf = (bytes.drop lo).take size := by
      rw [hfilled.buf, Nat.add_sub_cancel_left]
    rw [if_neg (by simp), if_neg] at heq
    · refine ⟨hbuf, fun x y => hfilled.gaps_iff, hfilled.order, hfilled.content, heq, ?_⟩
      intro reply v hread
      rw [heq] at hread
      refine Spec.outcome (T := False) (Q := fun reply _ => reply = _) ?_ hread
      rw [spec_bind]
      -- neither the promotion nor the end of the scope changes the answer
      refine spec_rest fun _ _ => spec_rest fun _ _ => spec_rest fun _ _ => spec_rest fun _ _ => ?_
      rw [spec_pure]
      exact spec_rest fun _ _ => spec_rest fun _ _ => congrArg (Prod.mk Status.OK) hbuf
    · intro hshort
      rw [hfilled.hole] at hshort
      cases hshort with
      | inl hshort => omega
      | inr hhole => cases hhole
  · intro hmissing
    rcases hanswer with ⟨_, hall⟩ | ⟨_, _, _, hshort⟩
    · exact absurd (hall hmissing.1) hmissing.2
    · rw [if_neg (by simp), if_pos hshort] at heq
      refine ⟨heq, fun reply v hread => ?_⟩
      rw [heq] at hread
      refine Spec.outcome (T := False) (Q := fun reply _ => reply.1 = _) ?_ hread
      rw [spec_bind]
      refine spec_rest fun _ _ => ?_
      rw [spec_pure]
      exact spec_rest fun _ _ => spec_rest fun _ _ => rfl

/-! ## The blocks of a run -/

/-- The segments in use of an object hold their slices, if none of them ends inside a slice. -/
theorem SlicesOk.backs {flags : Flags} {bytes : IOBuf} {W : Nat → Prop}
    {segments : SegmentRef → BlockSegment} {slices : List (Option SegmentRef)}
    (h : SlicesOk flags bytes W segments slices) {k : Nat} (hk : W k) {g : SegmentRef}
    (hg : slices[k]? = some (some g)) : Backs flags bytes k (segments g) := by
  obtain ⟨hseg, ⟨hstart, _⟩, _⟩ := h.segment k g hg
  have hlong := hseg.long
  have hfits := hseg.fits
  refine ⟨hseg.aligned, hseg.long, fun p hp => hseg.content p (by omega) (by omega), hstart, ?_⟩
  rcases h.fills k g hg hk with hend | hend
  · exact Or.inr (Nat.le_antisymm hfits hend)
  · exact Or.inl hend

/-- Every block of an object in the index of a run holds the part of the value that was set: its
segments their slices, and the disk block all of it. -/
theorem Run.block_content {rt : Runtime} {options : CacheOptions} {history : List Record} {s : State}
    (hdata : DataHyp rt.toPlatform) (hrun : Run rt options history s)
    (hsmall : ∀ record ∈ history, record.call.Bounded 2147483648)
    (hrange : ∀ record ∈ history, record.call.InRange) {id : CacheId} {r : ItemRef}
    (hfind : s.find id = some r) :
    ∃ value, latestValue (s.items r).cacheKey history = some value ∧
      ∀ i b, s.HasBlock r i b →
        (∀ block, b.memBlockItem = some block →
          block.slices.length = rt.flags.blockSize / rt.flags.sliceSize ∧
            ∀ k g, block.slices[k]? = some (some g) →
              Backs rt.flags (blockPart rt.flags value i) k (s.segments g)) ∧
          ∀ blockId, b.diskBlockItem = some blockId →
            BlockOnDisk rt.toPlatform s (blockPart rt.flags value i) blockId := by
  have hfits : ∀ record ∈ history, record.call.Fits rt.flags := fun record hrecord =>
    Call.fits hdata.toGeometry (hsmall record hrecord) (hrange record hrecord)
  obtain ⟨val, hsound⟩ := (hrun.runOf _ hfits).sound (Scenario.bytes hdata).unbroken rfl False.elim
    (fun _ _ _ h _ => h.stored) (fun _ _ _ h _ => Or.inl h.inRange) fun _ _ _ _ => .all _ _
  have hinv := hsound.inv
  have hlive : r ∈ s.liveItems := hinv.wf.indexed_live hfind
  have hitem := hinv.content trivial r hlive
  refine ⟨val r, hsound.latest id r hfind, ?_⟩
  intro i b hb
  constructor
  · intro block hmem
    have hslices := (hitem.mem i b block hb hmem).slices
    exact ⟨hslices.length, fun k g hg => hslices.backs (Or.inl trivial) hg⟩
  · intro blockId hdisk
    exact (hitem.disk i b blockId hb hdisk).of_eq rfl rfl

/-- In a run whose reads do not fail every block is ready to be read. -/
theorem Run.block_ready {rt : Runtime} {options : CacheOptions} {history : List Record} {s : State}
    (hdata : DataHyp rt.toPlatform) (hreads : ReadHyp rt.toPlatform s.clock)
    (hcovered : Covered rt.flags (StarCacheImpl.init rt.toPlatform options).diskSpace)
    (hrun : Run rt options history s) (hsmall : ∀ record ∈ history, record.call.Bounded 2147483648)
    (hrange : ∀ record ∈ history, record.call.InRange) {id : CacheId} {r : ItemRef}
    (hfind : s.find id = some r) :
    ∃ value, latestValue (s.items r).cacheKey history = some value ∧
      ∀ i b, s.HasBlock r i b →
        (∀ block, b.memBlockItem = some block →
          block.slices.length = rt.flags.blockSize / rt.flags.sliceSize ∧
            ∀ k g, block.slices[k]? = some (some g) →
              Backs rt.flags (blockPart rt.flags value i) k (s.segments g)) ∧
          ∀ blockId, b.diskBlockItem = some blockId →
            ∀ cacheId, Serves rt.toPlatform (blockPart rt.flags value i) cacheId blockId s := by
  have hfits : ∀ record ∈ history, record.call.Fits rt.flags := fun record hrecord =>
    Call.fits hdata.toGeometry (hsmall record hrecord) (hrange record hrecord)
  obtain ⟨val, hsound⟩ := (hrun.runOf _ hfits).sound (.served hdata 0) rfl (fun _ => hcovered)
    (fun _ _ _ h _ => h.stored) (fun _ _ _ _ _ => Or.inr fun _ _ _ h => h) fun _ _ _ _ => .all _ _
  have hinv := hsound.inv
  have hlive : r ∈ s.liveItems := hinv.wf.indexed_live hfind
  obtain ⟨value, hlatest, hcontent⟩ := hrun.block_content hdata hsmall hrange hfind
  refine ⟨value, hlatest, ?_⟩
  intro i b hb
  obtain ⟨hmem, hon⟩ := hcontent i b hb
  refine ⟨hmem, ?_⟩
  intro blockId hdisk cacheId
  have hlocated : Located rt.flags s.diskSpace blockId :=
    (hinv.covered trivial).located hinv.wf.diskSpace (hinv.wf.disk_live hlive hb hdisk)
  exact (hon blockId hdisk).serves hdata hreads (length_blockPart_le _ _ _) hlocated
    (Nat.le_refl _) hinv.wf.diskTracker cacheId

/-- A block of two slices on disk, the first one promoted to memory. -/
theorem read_block_merges_small : ∃ history s b,
    Run (.simple .small .reliable) (.oneDir 12 16) history s ∧ s.HasBlock 0 0 b ∧
      b.slices = [some 0, none] ∧ ∃ (p : ReadProgress) (t : State), p.buf = [1, 2, 3, 4] ∧
        (∀ x y, MaximalGap Flags.small b.slices 0 4 x y ↔
          ∃ seg ∈ p.diskSegments, seg.offset = x ∧ seg.offset + seg.size = y) ∧
        Aside (Runtime.simple .small .reliable).toPlatform s t := by
  obtain ⟨history, s, hrun, hp⟩ := Run.of_calls (.simple .small .reliable) (.oneDir 12 16)
    [.set [1] [1, 2, 3, 4] (some { mode := .writeThrough }), .read [1] 0 2 none]
    (fun history s => decide (s.find 1 = some 0 ∧
      latestValue (s.items 0).cacheKey history = some [1, 2, 3, 4] ∧
      (∀ record ∈ history, record.call.Bounded 2147483648) ∧
      (∀ record ∈ history, record.call.InRange) ∧
      (s.items 0).blocks[0]?.map BlockItem.slices = some [some 0, none] ∧
      ((s.items 0).blocks[0]?.bind BlockItem.diskBlockItem).isSome = true))
    (by decide +kernel)
  obtain ⟨hfind, hlatest, hsmall, hrange, hslices, hdisk⟩ := of_decide_eq_true hp
  obtain ⟨value, hvalue, hready⟩ := Run.block_ready (dataHyp_reliable geometry_small (.inl rfl))
    (readHyp_reliable (by decide) s.clock)
    (init_covered (by decide) (by decide) (by decide) (by decide)) hrun hsmall hrange hfind
  obtain rfl : value = [1, 2, 3, 4] := Option.some.inj (hvalue.symm.trans hlatest)
  obtain ⟨b, hb, hslices⟩ := Option.map_eq_some_iff.mp hslices
  have hblock : s.HasBlock 0 0 b := hb
  rw [hb, Option.bind_some] at hdisk
  obtain ⟨hmem, hserves⟩ := hready 0 b hblock
  obtain ⟨p, t, ht, hanswer, _⟩ := @read_block_merges (.simple .small .reliable) s 0 ⟨1, 0⟩ b
    [1, 2, 3, 4] 0 4 geometry_small (by decide) hblock hmem (fun id hid => hserves id hid 1)
    (by decide) (by decide) (Or.inr rfl) none
  obtain ⟨hbuf, hgaps, _⟩ := hanswer (Or.inl fun hnone => by rw [hnone] at hdisk; cases hdisk)
  exact ⟨history, s, b, hrun, hblock, hslices, p, t, hbuf, hgaps, ht⟩

end StarCache
