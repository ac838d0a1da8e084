import StarCache.Refinement.ReadItem
import StarCache.Sharing.Actions

/-!
# Actions on shared blocks

Slots, memory blocks with their segments, and disk blocks. A disk block that is being filled is
followed by `Filling`, which is no lasting knowledge but stays true while the thread has its
pointer.
-/

namespace StarCache

namespace Sharing

open Discipline Pool Function Shared

variable {flags : Flags} {V : Objects} {t : Nat} {h : Held} {F : Knowledge} {s : Shared}
  {r : ItemRef} {i : Nat} {d : DiskRef} {m : MemRef} {g : SegmentRef}

theorem hasBlock {tr : Deeds Atom Atom.Answer} (hh : s.held t = h) (hr : 0 < h.items r)
    (hin : InItem flags r i tr s) : s.HasBlock flags r i :=
  ⟨List.ne_nil_of_mem (alive_item hh hr), hin.2⟩

/-! ## Slots -/

theorem getMem_runs (hF : Lasting flags V F) (hr : 0 < h.items r) (hin : Gets flags V F (InItem flags r i)) :
    Runs flags V t h F (perform (.getMem r i)) (fun _ => h)
      fun a tr s => F tr s ∧ ∀ m, a = some m → MemOf m r i tr s := by
  refine runs_look hF (fun a => ?_) fun tr s hs hh hP _ => ?_
  · exact persistent_all fun m => persistent_all fun _ => lasting_memOf
  · refine ⟨s.memSlot r i, if_pos (hasBlock hh hr (hin tr s hs hP)), fun m hm => ?_⟩
    exact hs.contents.memSlot r i m hm

theorem hasDisk_runs (hF : Lasting flags V F) (hr : 0 < h.items r)
    (hin : Gets flags V F (InItem flags r i)) :
    Runs flags V t h F (perform (.hasDisk r i)) (fun _ => h) fun _ => F := by
  refine (runs_look hF (fun _ => persistent_const True) fun tr s hs hh hP _ => ?_).post
    fun _ => (Gets.refl F).left
  exact ⟨(s.diskSlot r i).isSome, if_pos (hasBlock hh hr (hin tr s hs hP)), trivial⟩

theorem setMem_memSlot (s : Shared) (r r' : ItemRef) (i i' : Nat) (x : Option MemRef) :
    (s.setMem r i x).memSlot r' i' = if r' = r ∧ i' = i then x else s.memSlot r' i' := by
  unfold setMem
  dsimp only
  by_cases hr : r' = r
  · subst hr
    rw [update_self]
    by_cases hi : i' = i
    · subst hi
      rw [update_self, if_pos ⟨rfl, rfl⟩]
    · rw [update_of_ne hi, if_neg fun h => hi h.2]
  · rw [update_of_ne hr, if_neg fun h => hr h.1]

theorem setMem_spares {x : Option MemRef} (hx : s.Fresh r → ∃ m, x = some m ∧ s.Full flags m r i) :
    Spares flags s (s.setMem r i x) := by
  refine ⟨fun _ _ h => h, fun _ _ h => h.alive, fun _ _ _ h => h, fun r' _ hfresh i' hwhole => ?_,
    fun _ _ h h' => absurd (h.symm.trans h') (by decide)⟩
  by_cases heq : r' = r ∧ i' = i
  · obtain ⟨rfl, rfl⟩ := heq
    obtain ⟨m, rfl, hfull⟩ := hx ⟨hfresh.unlinked, hfresh.alive⟩
    exact Or.inl ⟨m, (setMem_memSlot ..).trans (if_pos ⟨rfl, rfl⟩), hfull⟩
  · refine hwhole.imp_left fun ⟨m, hm, hfull⟩ => ⟨m, ?_, hfull⟩
    rwa [setMem_memSlot, if_neg heq]

/-- A slot gets a memory block that was made for it, or is cleared. -/
theorem setMem_inv (hs : Inv flags V s) {x : Option MemRef}
    (hx : ∀ m, x = some m → m < s.memCount ∧ (s.memBlocks m).owner = (r, i)) :
    Inv flags V (s.setMem r i x) := by
  refine ⟨?_, ?_⟩
  · obtain ⟨hblocks, hcounted, hslots, hburied⟩ := hs.ledger
    exact ⟨⟨hblocks.allocated, hblocks.distinct, hblocks.used, hblocks.lt⟩,
      ⟨hcounted.slot, hcounted.index, hcounted.lt⟩, hslots, hburied⟩
  · have hc := hs.contents
    refine ⟨hc.value, fun r' i' m hm => ?_, hc.diskSlot,
      fun m hm => ⟨(hc.mem m hm).owner, (hc.mem m hm).length, (hc.mem m hm).segment⟩, hc.owner,
      hc.hidden, hc.good, hc.indexed⟩
    rw [setMem_memSlot] at hm
    split at hm
    next heq =>
      rw [heq.1, heq.2]
      exact hx m hm
    next => exact hc.memSlot r' i' m hm

theorem setMem_runs (hF : Lasting flags V F) (hr : 0 < h.items r)
    (hin : Gets flags V F (InItem flags r i)) (hstale : Gets flags V F (Stale r))
    {x : Option MemRef} (hx : ∀ m, x = some m → Gets flags V F (MemOf m r i)) :
    Runs flags V t h F (perform (.setMem r i x)) (fun _ => h) fun _ => F :=
  runs_step hF fun tr s hs hh hP => ⟨(), s.setMem r i x,
    fun _ => if_pos (hasBlock hh hr (hin tr s hs hP)),
    setMem_inv hs fun m hm => hx m hm tr s hs hP,
    .of_eq (fun _ => ⟨rfl, rfl⟩) rfl (fun _ _ => rfl)
      (setMem_spares fun hfresh => absurd hfresh (hstale tr s hs hP)), hh⟩

/-- A block gets all its bytes in memory. -/
theorem placeMem_runs (hF : Lasting flags V F) (hr : 0 < h.items r)
    (hin : Gets flags V F (InItem flags r i)) (hm : Gets flags V F (MemOf m r i))
    (hfull : Gets flags V F fun _ s => s.Full flags m r i) :
    Runs flags V t h F (perform (.setMem r i (some m))) (fun _ => h)
      fun _ tr s => F tr s ∧ WholeOf flags r i tr s :=
  runs_change hF (fun _ => lasting_wholeOf) fun tr s hs hh hP => ⟨(), s.setMem r i (some m),
    fun _ => if_pos (hasBlock hh hr (hin tr s hs hP)),
    setMem_inv hs (by rintro _ ⟨⟩; exact hm tr s hs hP),
    .of_eq (fun _ => ⟨rfl, rfl⟩) rfl (fun _ _ => rfl)
      (setMem_spares fun _ => ⟨m, rfl, hfull tr s hs hP⟩), hh, (hin tr s hs hP).1,
    fun _ => Or.inl ⟨m, (setMem_memSlot ..).trans (if_pos ⟨rfl, rfl⟩), hfull tr s hs hP⟩⟩

/-! ## Memory blocks and segments -/

theorem newMem_runs (hF : Lasting flags V F) (hgeo : Geometry flags)
    (hin : Gets flags V F (InItem flags r i)) {state : BlockState} :
    Runs flags V t h F (perform (.newMem r i state)) (fun _ => h)
      fun a tr s => F tr s ∧ MemOf a r i tr s := by
  refine runs_change hF (fun a => lasting_memOf) fun tr s hs hh hP => ?_
  have hslices : SlicesOk flags [] (fun _ => True) s.segments (MemBlockItem.new flags state).slices :=
    slicesOk_new hgeo state
  have hold : ∀ m < s.memCount, ∀ block, (s.addMem block).memBlocks m = s.memBlocks m :=
    fun m hm block => update_of_ne (Nat.ne_of_lt hm) ..
  have hnew : ∀ block, (s.addMem block).memBlocks s.memCount = block := fun block => update_self ..
  refine ⟨s.memCount, s.addMem ⟨(r, i), (MemBlockItem.new flags state).slices, state⟩, fun _ => rfl,
    ⟨?_, ?_⟩, ?_, hh, Nat.lt_succ_self _, ?_⟩
  · obtain ⟨hblocks, hcounted, hslots, hburied⟩ := hs.ledger
    exact ⟨⟨hblocks.allocated, hblocks.distinct, hblocks.used, hblocks.lt⟩,
      ⟨hcounted.slot, hcounted.index, hcounted.lt⟩, hslots, hburied⟩
  · have hc := hs.contents
    refine ⟨hc.value, fun r' i' m hm => ?_, hc.diskSlot, fun m hm => ?_, hc.owner, hc.hidden, hc.good,
      hc.indexed⟩
    · obtain ⟨hlt, howner⟩ := hc.memSlot r' i' m hm
      exact ⟨Nat.lt_succ_of_lt hlt, by rw [hold m hlt, howner]⟩
    · by_cases hlt : m < s.memCount
      · obtain ⟨howner, hlength, hsegment⟩ := hc.mem m hlt
        refine ⟨?_, ?_, ?_⟩
        all_goals rw [hold m hlt]
        exacts [howner, hlength, hsegment]
      · obtain rfl : m = s.memCount := Nat.le_antisymm (Nat.le_of_lt_succ hm) (Nat.not_lt.mp hlt)
        refine ⟨?_, ?_, ?_⟩
        all_goals rw [hnew]
        · exact (hin tr s hs hP).1
        · exact hslices.length
        · intro k g hg
          unfold MemBlockItem.new at hg
          cases List.eq_of_mem_replicate (List.mem_of_getElem? hg)
  · have hslice : ∀ m < s.memCount, ∀ k, s.HasSlice m k → ∀ block,
        (s.addMem block).HasSlice m k := by
      intro m hm k hk block
      unfold HasSlice
      rwa [hold m hm]
    exact ⟨Nat.le_refl _, fun _ _ => ⟨rfl, rfl⟩, Nat.le_succ _, fun m hm => by rw [hold m hm],
      fun m hm k hk => hslice m hm k hk _, Nat.le_refl _, fun _ _ => rfl, Nat.le_refl _,
      fun _ _ => ⟨rfl, rfl, id⟩, fun _ _ => rfl, fun _ _ _ _ hpub => ⟨hpub, fun _ _ => rfl⟩,
      .of_slots (fun _ _ => rfl) (fun _ _ _ h => ⟨h, rfl, rfl⟩) fun r' i' m hm k hk =>
        hslice m (hs.contents.memSlot r' i' m hm).1 k hk _⟩
  · rw [hnew]

theorem memState_runs (hF : Lasting flags V F) :
    Runs flags V t h F (perform (.memState m)) (fun _ => h) fun _ => F :=
  (runs_look hF (fun _ => persistent_const True) fun _ _ _ _ _ _ =>
    ⟨_, rfl, trivial⟩).post fun _ => (Gets.refl F).left

/-- What is in a slice is a part of the block. -/
theorem getSlice_runs (hF : Lasting flags V F) (hm : Gets flags V F (MemOf m r i)) {k : Nat}
    (hk : k < flags.blockSize / flags.sliceSize) :
    Runs flags V t h F (perform (.getSlice m k)) (fun _ => h)
      fun a tr s => F tr s ∧ ∀ g, a = some g → SegmentOf flags g r i tr s := by
  refine runs_look hF (fun a => ?_) fun tr s hs hh hP _ => ?_
  · exact persistent_all fun g => persistent_all fun _ => lasting_segmentOf
  · obtain ⟨hlt, howner⟩ := hm tr s hs hP
    obtain ⟨howner', hlength, hsegment⟩ := hs.contents.mem m hlt
    rw [howner] at howner' hsegment
    have hget := List.getElem?_eq_getElem (hlength ▸ hk : k < (s.memBlocks m).slices.length)
    refine ⟨(s.memBlocks m).slices[k], ?_, fun g hg => ?_⟩
    · simp only [effect, hget, Option.map_some]
    · obtain ⟨hcount, hok, _⟩ := hsegment k g (hget.trans (congrArg some hg))
      exact ⟨howner', hcount, hok⟩

/-- A slice is set to a segment that covers it. -/
theorem setSlice_runs (hF : Lasting flags V F) (hm : Gets flags V F (MemOf m r i))
    (hg : Gets flags V F (SegmentOf flags g r i)) {k : Nat}
    (hk : k < flags.blockSize / flags.sliceSize)
    (hcovers : Gets flags V F fun _ s => (s.segments g).Covers flags k) :
    Runs flags V t h F (perform (.setSlice m k g)) (fun _ => h)
      fun _ tr s => F tr s ∧ SliceOf m k tr s := by
  refine runs_change hF (fun _ => lasting_sliceOf) fun tr s hs hh hP => ?_
  obtain ⟨hlt, howner⟩ := hm tr s hs hP
  have hlength := (hs.contents.mem m hlt).length
  have hold : ∀ m' ≠ m, (s.setSlice m k g).memBlocks m' = s.memBlocks m' := fun m' hne =>
    update_of_ne hne ..
  have hnew : (s.setSlice m k g).memBlocks m = { s.memBlocks m with
      slices := (s.memBlocks m).slices.set k (some g) } := update_self ..
  have howners : ∀ m', ((s.setSlice m k g).memBlocks m').owner = (s.memBlocks m').owner := by
    intro m'
    by_cases hne : m' = m
    · rw [hne, hnew]
    · rw [hold m' hne]
  have hset : (s.setSlice m k g).HasSlice m k := by
    refine ⟨g, ?_⟩
    rw [hnew]
    exact List.getElem?_set_self (hlength ▸ hk)
  have hslice : ∀ m' k', s.HasSlice m' k' → (s.setSlice m k g).HasSlice m' k' := by
    rintro m' k' ⟨g', hg'⟩
    by_cases hne : m' = m ∧ k' = k
    · rw [hne.1, hne.2]
      exact hset
    · refine ⟨g', ?_⟩
      by_cases hm' : m' = m
      · subst hm'
        rw [hnew]
        exact (List.getElem?_set_ne fun heq => hne ⟨rfl, heq.symm⟩).trans hg'
      · rwa [hold m' hm']
  refine ⟨(), s.setSlice m k g, fun _ => ?_, ⟨?_, ?_⟩, ?_, hh, hlt, hset⟩
  · refine if_pos ⟨Int.natCast_nonneg k, ?_⟩
    exact_mod_cast hlength ▸ hk
  · obtain ⟨hblocks, hcounted, hslots, hburied⟩ := hs.ledger
    exact ⟨⟨hblocks.allocated, hblocks.distinct, hblocks.used, hblocks.lt⟩,
      ⟨hcounted.slot, hcounted.index, hcounted.lt⟩, hslots, hburied⟩
  · have hc := hs.contents
    refine ⟨hc.value, fun r' i' m' hm' => ?_, hc.diskSlot, fun m' hm' => ?_, hc.owner, hc.hidden,
      hc.good, hc.indexed⟩
    · obtain ⟨hlt', howner'⟩ := hc.memSlot r' i' m' hm'
      exact ⟨hlt', by rw [howners, howner']⟩
    · obtain ⟨howner', hlength', hsegment⟩ := hc.mem m' hm'
      by_cases hne : m' = m
      · subst hne
        refine ⟨?_, ?_, fun k' g' hg' => ?_⟩
        all_goals rw [hnew] at *
        · exact howner'
        · rw [List.length_set]
          exact hlength'
        · rw [List.getElem?_set] at hg'
          split at hg'
          next heq =>
            rw [if_pos (hlength' ▸ hk)] at hg'
            cases hg'
            obtain ⟨_, hcount, hok⟩ := hg tr s hs hP
            dsimp only
            rw [howner, ← heq]
            exact ⟨hcount, hok, hcovers tr s hs hP⟩
          next => exact hsegment k' g' hg'
      · refine ⟨?_, ?_, ?_⟩
        all_goals rw [hold m' hne]
        exacts [howner', hlength', hsegment]
  · exact ⟨Nat.le_refl _, fun _ _ => ⟨rfl, rfl⟩, Nat.le_refl _, fun m' _ => howners m',
      fun m' _ => hslice m', Nat.le_refl _, fun _ _ => rfl, Nat.le_refl _,
      fun _ _ => ⟨rfl, rfl, id⟩, fun _ _ => rfl, fun _ _ _ _ hpub => ⟨hpub, fun _ _ => rfl⟩,
      .of_slots (fun _ _ => rfl) (fun _ _ _ h => ⟨h, rfl, rfl⟩) fun _ _ m' _ => hslice m'⟩

/-- A segment that covers a slice holds its bytes. -/
theorem slice_content {bytes : IOBuf} {seg : BlockSegment}
    (hseg : SegmentOk flags bytes seg) {k : Nat} (hk : seg.Covers flags k) {p : Nat}
    (hlow : k * flags.sliceSize ≤ p) (hhigh : p < (k + 1) * flags.sliceSize)
    (hp : p < bytes.length) : seg.buf[p - seg.offset]? = bytes[p]? := by
  obtain ⟨hstart, hstop⟩ := hk
  have hin : p < seg.offset + seg.size := by
    rcases hseg.ends with ⟨n, hn⟩ | hend
    · rw [hn, Nat.mul_comm flags.sliceSize] at hstop ⊢
      exact Nat.lt_of_lt_of_le hhigh
        (Nat.mul_le_mul_right flags.sliceSize (Nat.lt_of_mul_lt_mul_right hstop))
    · omega
  rw [hseg.content _ (by omega), Nat.add_sub_cancel' (by omega)]

/-- Reading a range of a memory block. -/
theorem readMem_runs (hF : Lasting flags V F) (hgeo : Geometry flags) {cacheKey : CacheKey}
    {value : IOBuf} (hitem : Gets flags V F (IsItem r cacheKey value)) (hm : Gets flags V F (MemOf m r i))
    {lo size : Nat} (hrange : SliceRange flags (blockPart flags value i) lo (lo + size)) :
    Runs flags V t h F (perform (.readMem m lo size)) (fun _ => h) fun a tr s => F tr s ∧
      ∃ slices, Tiles flags (blockPart flags value i) slices lo a (lo + size) := by
  refine runs_look hF (fun a => persistent_const _) fun tr s hs hh hP _ => ?_
  obtain ⟨hlt, howner⟩ := hm tr s hs hP
  obtain ⟨_, _, hvalue⟩ := hitem tr s hs hP
  obtain ⟨_, hlength, hsegment⟩ := hs.contents.mem m hlt
  unfold part at hsegment
  rw [howner, hvalue] at hsegment
  have hhold : SlicesHold flags (blockPart flags value i) (s.memBlocks m).slices (fun _ => True)
      s.segments :=
    slicesHold_whole hlength (fun k g hg => (hsegment k g hg).2.2.1) fun k g hg p hlow hhigh hp =>
      slice_content (hsegment k g hg).2.1 (hsegment k g hg).2.2 hlow hhigh hp
  have hlen : (blockPart flags value i).length ≤ flags.blockSize := List.length_take_le ..
  have := hrange.lt
  obtain ⟨segs, hread, htiles, _⟩ := readSegments_tiles hgeo hlen hhold hrange.aligned
    (show 0 < size by omega) hrange.le
  refine ⟨segs, ?_, (s.memBlocks m).slices, htiles⟩
  simp only [effect, hread, Option.map_some]

theorem newSegment_runs (hF : Lasting flags V F) {offset size : Nat} {buf : IOBuf} :
    Runs flags V t h F (perform (.newSegment offset size buf)) (fun _ => h)
      fun a tr s => F tr s ∧ ∀ g, a = some g → IsSegment g ⟨offset, size, buf⟩ tr s := by
  refine runs_perform hF (fun a => ?_) (.refl F) fun tr s hs hh hP =>
    ⟨Or.inr fun input => ?_, fun input a s' heffect => ?_⟩
  · exact persistent_all fun g => persistent_all fun _ => lasting_isSegment
  · simp only [effect]
    split <;> rfl
  · have hold : ∀ g < s.segmentCount, (s.addSegment ⟨offset, size, buf⟩).segments g =
        s.segments g := fun g hg => update_of_ne (Nat.ne_of_lt hg) ..
    simp only [effect] at heffect
    split at heffect
    next =>
      cases heffect
      refine ⟨⟨?_, ?_⟩, ?_, hh, ?_⟩
      · obtain ⟨hblocks, hcounted, hslots, hburied⟩ := hs.ledger
        exact ⟨⟨hblocks.allocated, hblocks.distinct, hblocks.used, hblocks.lt⟩,
          ⟨hcounted.slot, hcounted.index, hcounted.lt⟩, hslots, hburied⟩
      · have hc := hs.contents
        refine ⟨hc.value, hc.memSlot, hc.diskSlot, fun m hm => ?_, hc.owner, hc.hidden, hc.good,
          hc.indexed⟩
        obtain ⟨howner, hlength, hsegment⟩ := hc.mem m hm
        refine ⟨howner, hlength, fun k g hg => ?_⟩
        obtain ⟨hlt, hok⟩ := hsegment k g hg
        refine ⟨Nat.lt_succ_of_lt hlt, ?_⟩
        rw [hold g hlt]
        exact hok
      · exact ⟨Nat.le_refl _, fun _ _ => ⟨rfl, rfl⟩, Nat.le_refl _, fun _ _ => rfl,
          fun _ _ _ h => h, Nat.le_succ _, hold, Nat.le_refl _, fun _ _ => ⟨rfl, rfl, id⟩,
          fun _ _ => rfl, fun _ _ _ _ hpub => ⟨hpub, fun _ _ => rfl⟩, .of_same rfl rfl rfl rfl rfl⟩
      · rintro g heq
        cases heq
        exact ⟨Nat.lt_succ_self _, update_self ..⟩
    next =>
      cases heffect
      exact ⟨hs, .refl s, hh, fun _ h => by cases h⟩

/-- What a pointer to a segment points to. -/
theorem getSegment_runs (hF : Lasting flags V F) (hg : Gets flags V F fun _ s => g < s.segmentCount) :
    Runs flags V t h F (perform (.getSegment g)) (fun _ => h)
      fun a tr s => F tr s ∧ IsSegment g a tr s :=
  runs_look hF (fun _ => lasting_isSegment) fun tr s hs _ hP _ =>
    ⟨s.segments g, rfl, hg tr s hs hP, rfl⟩

/-! ## Disk blocks -/

theorem holdDisk_runs (hF : Lasting flags V F) (hr : 0 < h.items r)
    (hin : Gets flags V F (InItem flags r i)) :
    Runs flags V t h F (perform (.getDisk r i)) (fun a => a.elim h h.disk)
      fun a tr s => F tr s ∧ ∀ d, a = some d → PublishedOf d r i tr s := by
  refine runs_perform hF (fun a => ?_) (.refl F) fun tr s hs hh hP => ?_
  · exact persistent_all fun d => persistent_all fun _ => lasting_publishedOf
  have hblock := hasBlock hh hr (hin tr s hs hP)
  cases hslot : s.diskSlot r i with
  | none =>
      refine ⟨Or.inr fun _ => by simp only [effect, if_pos hblock, hslot, Option.isSome],
        fun _ a s' heffect => ?_⟩
      simp only [effect, if_pos hblock, hslot] at heffect
      cases heffect
      exact ⟨hs, .refl s, hh, fun _ h => by cases h⟩
  | some d =>
      refine ⟨Or.inr fun _ => by simp only [effect, if_pos hblock, hslot, Option.isSome],
        fun _ a s' heffect => ?_⟩
      simp only [effect, if_pos hblock, hslot] at heffect
      cases heffect
      have halive : s.diskHolders d ≠ [] :=
        List.ne_nil_of_mem (alive_of_slot hs.ledger.counted hslot)
      obtain ⟨howner, hpub⟩ := hs.contents.diskSlot r i d hslot
      have hc := hs.contents
      have halive' : ∀ d', (s.holdDisk d (.thread t)).diskHolders d' ≠ [] →
          s.diskHolders d' ≠ [] := by
        intro d' h' hnil
        unfold holdDisk at h'
        dsimp only at h'
        by_cases hd : d' = d
        · exact halive (hd ▸ hnil)
        · rw [update_of_ne hd] at h'
          exact h' hnil
      refine ⟨⟨ledger_holdDisk hs.ledger halive, ?_⟩, .of_eq (fun _ => ⟨rfl, rfl⟩) rfl
        (fun t' ht => ?_) (.of_same rfl rfl rfl rfl rfl), ?_, ?_⟩
      · refine ⟨hc.value, hc.memSlot, hc.diskSlot,
          fun m hm => ⟨(hc.mem m hm).owner, (hc.mem m hm).length, (hc.mem m hm).segment⟩,
          fun d' h' => hc.owner d' (halive' d' h'), fun d' h' => ?_,
          fun d' h' => hc.good d' (halive' d' h'), hc.indexed⟩
        have hd : d' ≠ d := by
          rintro rfl
          exact absurd (hpub.symm.trans h') (by simp)
        show ∃ t', ∀ x ∈ update s.diskHolders d _ d', _
        rw [update_of_ne hd]
        exact hc.hidden d' h'
      · rw [held_holdDisk, if_neg fun heq => ht (DiskHolder.thread.inj heq).symm]
      · rw [held_holdDisk, if_pos rfl, hh]
        rfl
      · rintro d' heq
        cases heq
        exact ⟨hs.ledger.blocks.lt d halive, howner, hpub⟩

theorem clearDisk_runs (hF : Lasting flags V F) (hr : 0 < h.items r)
    (hin : Gets flags V F (InItem flags r i)) (hstale : Gets flags V F (Stale r)) :
    Runs flags V t h F (perform (.setDisk r i none)) (fun _ => h) fun _ => F := by
  refine runs_step hF fun tr s hs hh hP => ⟨(), s.clearDisk r i, fun _ => ?_, ?_, ?_, ?_⟩
  · exact if_pos (hasBlock hh hr (hin tr s hs hP))
  · exact ⟨ledger_clearDisk hs.ledger, hs.contents.gives (clearDisk_gives s r i)⟩
  · refine (clearDisk_gives s r i).guar (fun t' _ => held_clearDisk s r i t') fun r' hlinked h' => ?_
    rw [(clearDisk_items s r i).1] at h'
    have hne : r' ≠ r := by
      rintro rfl
      exact hstale tr s hs hP ⟨hlinked, h'⟩
    refine ⟨h', congrFun (clearDisk_memSlot s r i) r', ?_⟩
    funext i'
    rw [clearDisk_diskSlot, if_neg fun h => hne h.1]
  · rw [held_clearDisk, hh]

theorem dropDisk_runs (hF : Lasting flags V F) :
    Runs flags V t (h.disk d) F (perform (.dropDisk d)) (fun _ => h) fun _ => F := by
  refine runs_step hF fun tr s hs hh hP => ?_
  have hmem : .thread t ∈ s.diskHolders d := by
    refine alive_disk hh ?_
    rw [Held.disk_disks, if_pos rfl]
    exact Nat.succ_pos _
  have hgives := dropDisk_gives s d (.thread t)
  refine ⟨(), s.dropDisk d (.thread t), fun _ => if_pos hmem, ?_, ?_, ?_⟩
  · exact ⟨ledger_dropDisk hs.ledger (List.ne_nil_of_mem hmem), hs.contents.gives hgives⟩
  · refine hgives.guar (fun t' ht => ?_) fun _ _ h' => ⟨h', rfl, rfl⟩
    rw [held_dropDisk_thread]
    simp [ht]
  · rw [held_dropDisk_thread, hh]
    ext d'
    · rfl
    · simp [Held.disk_disks]
    · rfl

end Sharing

end StarCache
