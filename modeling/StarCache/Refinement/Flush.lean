import StarCache.Refinement.DiskEviction

/-!
# Flush

`_flush_block` writes a memory block to disk or gives it up. A block becomes a
disk block only when all its slices have been written; a memory block is dropped
only when it is on disk or the flush has failed.
-/

namespace StarCache

open Prog MachineInt

variable {pf : Platform} {sc : Scenario pf} {P : Action → Prop} {s₀ s t : State} {g₀ g : Ghost}
  {own : Option Own}

/-! ## Sizes of blocks -/

theorem length_blockPart (flags : Flags) (value : IOBuf) (i : Nat) :
    (blockPart flags value i).length = min flags.blockSize (value.length - i * flags.blockSize) := by
  unfold blockPart
  rw [List.length_take, List.length_drop]

theorem lt_blockCountOf {flags : Flags} {size i : Nat} :
    i < blockCountOf flags size ↔ i * flags.blockSize < size := by
  have hbs := flags.blockSize_pos
  unfold blockCountOf
  split
  next h => omega
  next h =>
    rw [Nat.lt_succ_iff, Nat.le_div_iff_mul_le hbs]
    omega

theorem le_blockCountOf_mul (flags : Flags) (size : Nat) :
    size ≤ blockCountOf flags size * flags.blockSize := by
  have h : ¬ blockCountOf flags size < blockCountOf flags size := Nat.lt_irrefl _
  rw [lt_blockCountOf] at h
  exact Nat.not_lt.mp h

theorem ItemOk.length_lt {W : Nat → Nat → Prop} {value : IOBuf} {r : ItemRef}
    (h : ItemOk pf W value s r)
    (hgeo : Geometry pf.flags) : value.length < 18446744073709551616 := by
  have hle := le_blockCountOf_mul pf.flags value.length
  have := Nat.mul_le_mul (Nat.le_of_lt h.le) hgeo.block_le
  omega

/-- `block_size` is the number of bytes of the block. -/
theorem ItemOk.blockSize {W : Nat → Nat → Prop} {value : IOBuf} {r : ItemRef}
    (h : ItemOk pf W value s r)
    (hgeo : Geometry pf.flags) {i : Nat} (hi : i < (s.items r).blockCount pf.flags) :
    (s.items r).blockSize pf.flags i = (blockPart pf.flags value i).length := by
  have hle := h.length_lt hgeo
  unfold CacheItem.blockCount at hi
  rw [h.size, lt_blockCountOf] at hi
  have htail : u64 ((value.length : Int) - i * pf.flags.blockSize) =
      value.length - i * pf.flags.blockSize := by
    rw [show (value.length : Int) - i * pf.flags.blockSize =
      (value.length - i * pf.flags.blockSize : Nat) by push_cast [Int.ofNat_sub hi.le]; ring]
    exact u64_of_lt (by omega)
  unfold CacheItem.blockSize
  rw [length_blockPart, h.size, htail]
  dsimp only
  split <;> omega

/-- A block that is to be flushed: it is dirty or not on disk. -/
def State.Unflushed (s : State) (r : ItemRef) (i : Nat) : Prop :=
  ∀ b block, s.HasBlock r i b → b.memBlockItem = some block →
    block.state = .dirty ∨ b.diskBlockItem = none

/-! ## Settled keys -/

/-- A block key that needs no tracking, or is tracked. -/
def MemSettled (pf : Platform) (key : BlockKey) (s : State) : Prop :=
  ∀ r b, s.find key.cacheId = some r → s.HasBlock r key.blockIndex b → b.memBlockItem ≠ none →
    ¬ s.Locked r → s.MemTracked pf key

theorem Collects.memSettled (h : Collects s t) {key : BlockKey} (hs : MemSettled pf key s) :
    MemSettled pf key t := by
  intro r b hf hb hne hlocked
  rw [h.eq] at hf hb hlocked ⊢
  exact hs r b hf hb hne hlocked

/-! ## Blocks that go to disk -/

namespace CacheItem

theorem updateBlock_updateBlock (item : CacheItem) (i : Nat) (f f' : BlockItem → BlockItem) :
    (item.updateBlock i f).updateBlock i f' = item.updateBlock i (f' ∘ f) := by
  unfold updateBlock
  dsimp only
  rw [List.modify_modify_eq]

/-- Block `i` has a disk block, the one that it had if it had one, and nothing else has changed. -/
def Stored (i : Nat) (item item' : CacheItem) : Prop :=
  ∃ id, (∀ b, item.blocks[i]? = some b → b.diskBlockItem = none ∨ b.diskBlockItem = some id) ∧
    item' = item.updateBlock i fun b => { b with diskBlockItem := some id }

/-- Moreover the block is not in memory any more. -/
def Moved (i : Nat) (item item' : CacheItem) : Prop :=
  ∃ id, (∀ b, item.blocks[i]? = some b → b.diskBlockItem = none ∨ b.diskBlockItem = some id) ∧
    item' = item.updateBlock i fun _ => ⟨none, some id⟩

theorem Stored.moved {i : Nat} {item item' : CacheItem} (h : Stored i item item') :
    Moved i item (item'.updateBlock i fun b => { b with memBlockItem := none }) := by
  obtain ⟨id, hdisk, heq⟩ := h
  refine ⟨id, hdisk, ?_⟩
  rw [heq, updateBlock_updateBlock]
  rfl

/-- No disk block of the item is lost. -/
def KeepsDisk (item item' : CacheItem) : Prop :=
  ∀ (i : Nat) (b : BlockItem) id, item.blocks[i]? = some b → b.diskBlockItem = some id →
    ∃ b', item'.blocks[i]? = some b' ∧ b'.diskBlockItem = some id

theorem keepsDisk_updateBlock {i : Nat} {item : CacheItem} {f : BlockItem → BlockItem}
    (h : ∀ b id, item.blocks[i]? = some b → b.diskBlockItem = some id →
      (f b).diskBlockItem = some id) : KeepsDisk item (item.updateBlock i f) := by
  intro j b id hb hid
  refine ⟨if i = j then f b else b, ?_, ?_⟩
  · unfold updateBlock
    dsimp only
    rw [List.getElem?_modify, hb]
    rfl
  · split
    next hij => exact h b id (hij ▸ hb) hid
    next => exact hid

theorem Moved.keepsDisk {i : Nat} {item item' : CacheItem} (h : Moved i item item') :
    KeepsDisk item item' := by
  obtain ⟨id, hdisk, heq⟩ := h
  rw [heq]
  refine keepsDisk_updateBlock fun b id' hb hid' => ?_
  exact ((hdisk b hb).resolve_left (by simp [hid'])).symm.trans hid'

/-- A block that is on disk already. -/
theorem stored_self {i : Nat} {item : CacheItem} {b : BlockItem} {id : BlockId}
    (hb : item.blocks[i]? = some b) (hdisk : b.diskBlockItem = some id) : Stored i item item := by
  refine ⟨id, fun b' hb' => Or.inr ?_, ?_⟩
  · obtain rfl : b' = b := Option.some.inj (hb'.symm.trans hb)
    exact hdisk
  · have hsame : item.blocks.modify i (fun b => { b with diskBlockItem := some id }) =
        item.blocks := by
      apply List.ext_getElem?
      intro j
      rw [List.getElem?_modify]
      by_cases hj : i = j
      · subst hj
        rw [hb, ← hdisk]
        simp
      · simp [hj]
    unfold updateBlock
    rw [hsame]

end CacheItem

theorem CacheItem.Stored.hasBlock {r : ItemRef} {i : Nat} {item : CacheItem} {b : BlockItem}
    (h : CacheItem.Stored i item (t.items r)) (hb : item.blocks[i]? = some b) :
    ∃ b', t.HasBlock r i b' ∧ b'.diskBlockItem ≠ none := by
  obtain ⟨id, _, heq⟩ := h
  refine ⟨{ b with diskBlockItem := some id }, ?_, Option.some_ne_none _⟩
  unfold State.HasBlock CacheItem.updateBlock at *
  rw [heq]
  dsimp only
  rw [List.getElem?_modify, hb]
  simp

/-- What a flush with status `st` has done before the block leaves memory. -/
structure Flushed (key : BlockKey) (r : ItemRef) (st : Status) (s t : State) : Prop where
  find : t.find key.cacheId = s.find key.cacheId
  stored : st.ok = true → CacheItem.Stored key.blockIndex (s.items r) (t.items r)
  failed : st.ok = false → t.items r = s.items r

/-! ## Writing segments -/

/-- A transfer to a block of item `r`, which leaves the blocks of the other items alone. -/
theorem Ran.wrote (h : Ran sc P s₀ g₀ s g) {id : BlockId} {r : ItemRef}
    {i : Nat} (howner : s.OwnerAt id r i) {seg : BlockSegment} {done : Bool}
    (hwrote : DiskCache.Wrote s t id)
    (hslices : sc.D →
      DiskCache.WroteSlices pf (blockPart pf.flags (sc.val r) i) seg s t id done) :
    Ran sc P s₀ g₀ t g := by
  obtain ⟨heq, hclock, hsums⟩ := hwrote
  rw [heq]
  refine h.step h.other (.write _ _ _ hclock fun hD r' hr' i' b id' hb hid hon => ?_)
    (fun _ hx => hx) rfl rfl
  rw [← heq]
  by_cases hne : id' = id
  · subst hne
    obtain ⟨rfl, rfl⟩ := howner r' i' b hr' hb hid
    exact fun k hk => (hslices hD).keep k (hon k hk)
  · exact hon.same (length_blockPart_le _ _ _) ((hslices hD).others id' hne)

/-- A block that has been dropped from memory is on disk, or its flush has failed. -/
theorem Ran.dropped {r : ItemRef} {key : BlockKey}
    (h : Ran sc P s₀ g₀ t { g with hollow := insert r g.hollow })
    (hinv : Inv sc ⟨s₀, g₀⟩) (heffect : Collects (s.withItem r
      ((s.items r).updateBlock key.blockIndex fun b => { b with memBlockItem := none })) t)
    (hcause : (∃ b, s.HasBlock r key.blockIndex b ∧ b.diskBlockItem ≠ none) ∨
      .flushFailed key r (s.items r) ∈ s.trace) : Ran sc P s₀ g₀ t g := by
  refine h.fill hinv fun id hfind => ?_
  rcases hcause with ⟨b, hb, hdisk⟩ | hevent
  · refine Or.inl ⟨key.blockIndex, { b with memBlockItem := none }, heffect.hasBlock.mpr ?_, ?_⟩
    · exact State.hasBlock_updateBlock.mpr ⟨b, hb, by rw [if_pos ⟨rfl, rfl⟩]⟩
    · cases hd : b.diskBlockItem with
      | none => exact absurd hd hdisk
      | some _ => simp [BlockItem.isEmpty]
  · by_cases hdrained : Drained key (s.items r)
    · refine Or.inr ⟨key, _, ?_, hdrained⟩
      rw [heffect.eq]
      exact hevent
    · refine Or.inl ?_
      unfold Drained at hdrained
      rw [List.all_eq_true] at hdrained
      push Not at hdrained
      obtain ⟨b, hmem, hb⟩ := hdrained
      obtain ⟨i, hi⟩ := List.mem_iff_getElem?.mp hmem
      refine ⟨i, b, heffect.hasBlock.mpr ?_, by simpa using hb⟩
      rw [State.hasBlock_withItem, if_pos rfl]
      exact hi

namespace StarCacheImpl

/-- All segments of a list go to disk, or the status tells. -/
theorem writeSegments_spec (hinv : Inv sc ⟨s, g⟩) (hother : P .other) {id : BlockId} {r : ItemRef}
    {i : Nat} (halive : id ∈ s.liveBlocks) (howner : s.OwnerAt id r i) (segs : List BlockSegment)
    (hsegs : sc.D → ∀ seg ∈ segs, SegmentOk pf.flags (blockPart pf.flags (sc.val r) i) seg) :
    Spec sc.T (writeSegments pf id segs) (fun st t => Ran sc P s g t g ∧
      t = { s with clock := t.clock, files := t.files, checksums := t.checksums } ∧
      (sc.D → ∀ k, SliceOnDisk pf s (blockPart pf.flags (sc.val r) i) id k ∨
        (st.ok = true ∧ ∃ seg ∈ segs, seg.Covers pf.flags k) →
          SliceOnDisk pf t (blockPart pf.flags (sc.val r) i) id k)) s := by
  unfold writeSegments
  refine spec_forUntil (fun rest t => Ran sc P s g t g ∧
    t = { s with clock := t.clock, files := t.files, checksums := t.checksums } ∧
    (∀ seg ∈ rest, seg ∈ segs) ∧
    (sc.D → ∀ k, SliceOnDisk pf s (blockPart pf.flags (sc.val r) i) id k ∨
      (∃ seg ∈ segs, seg ∉ rest ∧ seg.Covers pf.flags k) →
        SliceOnDisk pf t (blockPart pf.flags (sc.val r) i) id k)) _ ?_ ?_ segs s
    ⟨.refl hother, rfl, fun _ h => h, fun _ k hk => ?_⟩
  · rintro seg rest u ⟨hu, heq, hsub, hdone⟩
    have hinv' := hu.inv hinv
    have halive' : id ∈ u.liveBlocks := by
      rw [heq]
      exact halive
    have howner' : u.OwnerAt id r i := by
      rw [heq]
      exact howner
    refine (DiskCache.writeBlock_spec sc.data sc.total id (fun hD =>
      ⟨hsegs hD seg (hsub seg List.mem_cons_self), length_blockPart_le _ _ _⟩) fun hT =>
        (hinv'.covered hT).located hinv'.wf.diskSpace halive').mono ?_
    rintro st v ⟨hwrote, hslices⟩
    have hv := hu.wrote howner' hwrote hslices
    have heq' : v = { s with clock := v.clock, files := v.files, checksums := v.checksums } := by
      rw [hwrote.eq, heq]
    have hkeep : sc.D → ∀ k, SliceOnDisk pf s (blockPart pf.flags (sc.val r) i) id k ∨
        (∃ seg' ∈ segs, seg' ∉ seg :: rest ∧ seg'.Covers pf.flags k) →
          SliceOnDisk pf v (blockPart pf.flags (sc.val r) i) id k := fun hD k hk =>
      (hslices hD).keep k (hdone hD k hk)
    split
    next hfail =>
      refine ⟨hv, heq', fun hD k hk => hkeep hD k (Or.inl (hk.resolve_right fun h => ?_))⟩
      rw [h.1] at hfail
      cases hfail
    next hok =>
      refine ⟨hv, heq', fun seg' h => hsub seg' (List.mem_cons_of_mem _ h), fun hD k hk => ?_⟩
      rcases hk with hk | ⟨seg', hseg', hnot, hcov⟩
      · exact hkeep hD k (Or.inl hk)
      · by_cases hhead : seg' = seg
        · subst hhead
          exact (hslices hD).written (by simpa using hok) k hcov
        · refine hkeep hD k (Or.inr ⟨seg', hseg', fun h => ?_, hcov⟩)
          exact (List.mem_cons.mp h).elim hhead hnot
  · rintro u ⟨hu, heq, _, hdone⟩
    refine ⟨hu, heq, fun hD k hk => hdone hD k (hk.imp_right ?_)⟩
    rintro ⟨_, seg, hseg, hcov⟩
    exact ⟨seg, hseg, List.not_mem_nil, hcov⟩
  · refine hk.elim (fun h => h) ?_
    rintro ⟨seg, hseg, hnot, _⟩
    exact absurd hseg hnot

/-! ## The two ways to disk -/

/-- The segments to be flushed hold their parts of the block. -/
def Flushable (pf : Platform) (bytes : IOBuf) (s : State) (refs : List SegmentRef) : Prop :=
  ∀ ref ∈ refs, SegmentOk pf.flags bytes (s.segments ref)

variable {r : ItemRef} {key : BlockKey} {refs : List SegmentRef}

theorem flushOver_spec (hinv : Inv sc ⟨s, g⟩) (hother : P .other) (hchange : P (.change r))
    (hlive : r ∈ s.liveItems) {b : BlockItem} (hb : s.HasBlock r key.blockIndex b) {id : BlockId}
    (hdisk : b.diskBlockItem = some id)
    (hrefs : sc.D → Flushable pf (blockPart pf.flags (sc.val r) key.blockIndex) s refs) :
    Spec sc.T (flushOver pf r key refs id)
      (fun st t => Ran sc P s g t g ∧ Flushed key r st s t) s := by
  have hstart : Ran sc P s g s g := .refl hother
  unfold flushOver
  simp only [spec_bind, spec_read]
  refine (lock_spec hstart true key).mono ?_
  rintro _ u ⟨hu, hueq⟩
  have hinvu := hu.inv hinv
  have hliveu : r ∈ u.liveItems := by
    rw [hueq]
    exact hlive
  have hbu : u.HasBlock r key.blockIndex b := by
    rw [hueq]
    exact hb
  refine (writeSegments_spec hinvu hother (hinvu.wf.disk_live hliveu hbu hdisk)
    (hinvu.wf.ownerAt hliveu hbu hdisk) (refs.map u.segments) fun hD seg hseg => ?_).mono ?_
  · obtain ⟨ref, href, rfl⟩ := List.mem_map.mp hseg
    rw [hueq]
    exact hrefs hD ref href
  rintro st v ⟨hv, hveq, hkeep⟩
  have hran := hu.trans hv
  have hinvv := hran.inv hinv
  have hlivev : r ∈ v.liveItems := by
    rw [hveq]
    exact hliveu
  have hbv : v.HasBlock r key.blockIndex b := by
    rw [hveq]
    exact hbu
  refine spec_ite (fun hok => ?_) fun hfail => ?_
  · simp only [spec_bind]
    refine (attachDisk_spec hran hinvv hchange (hinvv.wf.disk_live hlivev hbv hdisk)
      (hinvv.wf.ownerAt hlivev hbv hdisk) fun hD k hk => ?_).mono ?_
    · have hon := (hinvu.content hD r hliveu).disk _ b id hbu hdisk
      exact hkeep hD k (Or.inl (hon k hk))
    rintro _ w ⟨hw, heffect⟩
    -- the block has been on disk before, so that nothing is owed
    have hsettle : Ran sc P s g w g := by
      have hinvw := hw.inv hinv
      refine hw.settle hinvw.memEvictable (heffect.diskEvictable ?_) hinvw.nonEmpty
      refine hinvv.diskEvictable.updateBlock subset_rfl fun b₀ hb₀ _ => Or.inl ?_
      obtain rfl : b₀ = b := Option.some.inj (hb₀.symm.trans hbv)
      rw [hdisk]
      exact Option.some_ne_none _
    refine (unlock_spec hsettle true key).mono ?_
    rintro _ x ⟨hx, hxeq⟩
    rw [spec_pure]
    refine ⟨hx, ?_, fun _ => ⟨id, fun b₀ hb₀ => Or.inr ?_, ?_⟩, fun hfail => ?_⟩
    · rw [hxeq, heffect.eq, hveq, hueq]
      rfl
    · obtain rfl : b₀ = b := Option.some.inj (hb₀.symm.trans hb)
      exact hdisk
    · rw [hxeq, heffect.eq]
      dsimp only
      rw [State.withItem_items, if_pos rfl, hveq, hueq]
    · rw [hok] at hfail
      cases hfail
  · simp only [spec_bind]
    refine (unlock_spec hran true key).mono ?_
    rintro _ x ⟨hx, hxeq⟩
    rw [spec_pure]
    refine ⟨hx, ?_, fun hok => absurd hok hfail, fun _ => ?_⟩
    · rw [hxeq, hveq, hueq]
      rfl
    · rw [hxeq, hveq, hueq]

/-- What is owed after a flush that went well. -/
def flushGhost (g : Ghost) (id : CacheId) (st : Status) : Ghost :=
  if st.ok then { g with diskOwed := insert id g.diskOwed } else g

/-- A new disk block is shown to the item only when all of it has been written. -/
theorem flushNew_spec (hinv : Inv sc ⟨s, g⟩) (hprivate : s.Private own)
    (hspared : s.Spared pf ⟨r, key.cacheId⟩ (s.items r)) (hheld : .item r ∈ s.locals)
    {b : BlockItem} (hb : s.HasBlock r key.blockIndex b) (hmem : b.memBlockItem ≠ none)
    (hdisk : b.diskBlockItem = none) (halive : ∀ ref ∈ refs, ref ∈ s.liveSegments)
    (hrefs : sc.D → Flushable pf (blockPart pf.flags (sc.val r) key.blockIndex) s refs)
    (hfull : sc.D → ∀ k, k * pf.flags.sliceSize <
      (blockPart pf.flags (sc.val r) key.blockIndex).length →
        ∃ ref ∈ refs, (s.segments ref).Covers pf.flags k) :
    Spec sc.T (flushNew pf r key refs) (fun st t =>
      Ran sc (Action.InDisk own) s g t (flushGhost g key.cacheId st) ∧ Flushed key r st s t) s := by
  have hchange : Action.InDisk own (.change r) := hprivate.item_ne hspared.find
  have hholds : (s.items r).blocks.all (·.isEmpty) = false := by
    rw [List.all_eq_false]
    refine ⟨b, List.mem_of_getElem? hb, ?_⟩
    unfold BlockItem.isEmpty
    cases hblock : b.memBlockItem with
    | none => exact absurd hblock hmem
    | some _ => simp
  unfold flushNew
  simp only [spec_bind]
  -- the evictions for the new block do not meet the item
  refine (allocDiskBlock_spec hinv (evicts_sparing hinv hprivate hspared hholds) key).mono ?_
  rintro found u ⟨hu, hnew⟩
  have hkept := hu.runs.spared hinv (fun _ h => h) hholds hspared
  have hu := hu.mono fun _ h => h.1
  cases found with
  | none =>
      exact ⟨hu, hkept.find.trans hspared.find.symm, (fun h => by cases h), fun _ => hkept.item_eq⟩
  | some id =>
      obtain ⟨hidlive, howner⟩ := hnew id rfl
      have hinvu := hu.inv hinv
      have hlive : r ∈ s.liveItems := hinv.wf.local_alive hheld
      have hsegments : ∀ ref ∈ refs, u.segments ref = s.segments ref := fun ref href =>
        hu.static.segment ref (hinv.wf.segment_lt ref (halive ref href))
      have hstart : Ran sc (Action.InDisk own) u g u g := .refl trivial
      refine (scope_spec hu (flushGhost g key.cacheId) (fun st v => Flushed key r st s v)
        hinvu ?_).mono ?_
      · simp only [spec_bind, spec_read]
        have hidalive : u.Alive (.diskBlock id) := hidlive
        refine (hold_spec hstart hidalive).mono ?_
        rintro _ v ⟨hv, hveq⟩
        have hinvv := hv.inv hinvu
        have hidv : id ∈ v.liveBlocks := by
          rw [hveq]
          exact hidlive
        have hownerv : v.OwnerAt id r key.blockIndex := by
          rw [hveq]
          exact howner r key.blockIndex
        have hsegmentsv : v.segments = u.segments := by rw [hveq]
        refine (writeSegments_spec hinvv hv.other hidv hownerv (refs.map v.segments)
          fun hD seg hseg => ?_).mono ?_
        · obtain ⟨ref, href, rfl⟩ := List.mem_map.mp hseg
          rw [hsegmentsv, hsegments ref href]
          exact hrefs hD ref href
        rintro st w ⟨hw, hweq, hwritten⟩
        have hranw := hv.trans hw
        have hinvw := hranw.inv hinvu
        have hwitem : w.items r = s.items r := by
          rw [hweq, hveq]
          exact hkept.item_eq
        have hwfind : w.find key.cacheId = s.find key.cacheId := by
          rw [hweq, hveq]
          exact hkept.find.trans hspared.find.symm
        refine spec_ite (fun hok => ?_) fun hfail => ?_
        · simp only [spec_bind]
          refine (lock_spec hranw true key).mono ?_
          rintro _ x ⟨hx, hxeq⟩
          have hinvx := hx.inv hinvu
          have hidx : id ∈ x.liveBlocks := by
            rw [hxeq, hweq]
            exact hidv
          have hownerx : x.OwnerAt id r key.blockIndex := by
            rw [hxeq, hweq]
            exact hownerv
          refine (attachDisk_spec hx hinvx hchange hidx hownerx fun hD k hk => ?_).mono ?_
          · obtain ⟨ref, href, hcov⟩ := hfull hD k hk
            have hslice := hwritten hD k (Or.inr ⟨hok, _, List.mem_map_of_mem href, by
              rw [hsegmentsv, hsegments ref href]
              exact hcov⟩)
            refine ⟨?_, ?_⟩ <;> rw [hxeq]
            · exact hslice.content
            · exact hslice.checksum
          rintro _ y ⟨hy, heffect⟩
          have hids : x.idOf pf r = key.cacheId := by
            rw [(hu.trans hx).static.idOf (hinv.wf.item_lt r hlive)]
            exact hinv.wf.home _ r hspared.find
          have hxitem : x.items r = s.items r := by
            rw [hxeq]
            exact hwitem
          refine (unlock_spec hy true key).mono ?_
          rintro _ z ⟨hz, hzeq⟩
          rw [spec_pure]
          refine ⟨?_, ?_, fun _ => ⟨id, fun b₀ hb₀ => Or.inl ?_, ?_⟩, fun hfail => ?_⟩
          · unfold flushGhost
            rw [if_pos hok, ← hids]
            exact hz
          · rw [hzeq, heffect.eq, hxeq]
            exact hwfind
          · obtain rfl : b₀ = b := Option.some.inj (hb₀.symm.trans hb)
            exact hdisk
          · rw [hzeq, heffect.eq]
            dsimp only
            rw [State.withItem_items, if_pos rfl, hxitem]
          · rw [hok] at hfail
            cases hfail
        · rw [spec_pure]
          refine ⟨?_, hwfind, fun hok => absurd hok hfail, fun _ => hwitem⟩
          unfold flushGhost
          rw [if_neg hfail]
          exact hranw
      · rintro st t ⟨hran, _, _, v, hv, heffect⟩
        refine ⟨hran, ?_, ?_, ?_⟩ <;> rw [heffect.eq]
        · exact hv.find
        · exact hv.stored
        · exact hv.failed

theorem flushBlockSegments_spec (hinv : Inv sc ⟨s, g⟩) (hprivate : s.Private own)
    (hspared : s.Spared pf ⟨r, key.cacheId⟩ (s.items r)) (hheld : .item r ∈ s.locals)
    (hlayer : s.hasDiskLayer = true) {b : BlockItem} (hb : s.HasBlock r key.blockIndex b)
    (hmem : b.memBlockItem ≠ none) (halive : ∀ ref ∈ refs, ref ∈ s.liveSegments)
    (hrefs : sc.D → Flushable pf (blockPart pf.flags (sc.val r) key.blockIndex) s refs)
    (hfull : sc.D → b.diskBlockItem = none → ∀ k, k * pf.flags.sliceSize <
      (blockPart pf.flags (sc.val r) key.blockIndex).length →
        ∃ ref ∈ refs, (s.segments ref).Covers pf.flags k) :
    Spec sc.T (flushBlockSegments pf r key refs) (fun st t =>
      Ran sc (Action.InDisk own) s g t (flushGhost g key.cacheId st) ∧
      (∀ b', t.HasBlock r key.blockIndex b' → b'.memBlockItem = none) ∧
      t.find key.cacheId = s.find key.cacheId ∧
      CacheItem.KeepsDisk (s.items r) (t.items r) ∧
      (st.ok = true → CacheItem.Moved key.blockIndex (s.items r) (t.items r))) s := by
  have hstart : Ran sc (Action.InDisk own) s g s g := .refl trivial
  have hlive : r ∈ s.liveItems := hinv.wf.local_alive hheld
  have hchange : Action.InDisk own (.change r) := hprivate.item_ne hspared.find
  unfold flushBlockSegments
  simp only [spec_bind, spec_read]
  refine (lock_spec hstart false key).mono ?_
  rintro _ u ⟨hu, hueq⟩
  have hbu : u.HasBlock r key.blockIndex b := by
    rw [hueq]
    exact hb
  refine getBlock_spec (fun _ => (List.getElem?_eq_some_iff.mp hbu).1) fun b₀ hb₀ => ?_
  obtain rfl : b₀ = b := Option.some.inj (hb₀.symm.trans hbu)
  refine (unlock_spec hu false key).mono ?_
  rintro _ v ⟨hv, hveq⟩
  have hvs : v = { s with locks := v.locks } := by rw [hveq, hueq]
  have hinvv := hv.inv hinv
  have hbv : v.HasBlock r key.blockIndex b₀ := by
    rw [hvs]
    exact hb
  have hlivev : r ∈ v.liveItems := by
    rw [hvs]
    exact hlive
  have hheldv : .item r ∈ v.locals := hv.locals _ hheld
  have hrefsv : sc.D → Flushable pf (blockPart pf.flags (sc.val r) key.blockIndex) v refs := by
    intro hD ref href
    rw [hvs]
    exact hrefs hD ref href
  -- both ways to disk, with what they leave
  have hflush : Spec sc.T (flushToDisk pf r key refs b₀.diskBlockItem) (fun st w =>
        Ran sc (Action.InDisk own) v g w (flushGhost g key.cacheId st) ∧
        Flushed key r st v w) v := by
    have hsparedv : v.Spared pf ⟨r, key.cacheId⟩ (v.items r) := by
      rw [hvs]
      exact ⟨hspared.find, rfl, hspared.busy⟩
    cases hdisk : b₀.diskBlockItem with
    | some id =>
        refine (flushOver_spec hinvv hv.other hchange hlivev hbv hdisk hrefsv).mono ?_
        rintro st w ⟨hw, hwdisk⟩
        have hinvw := hw.inv hinvv
        refine ⟨?_, hwdisk⟩
        unfold flushGhost
        split
        · exact hw.settle hinvw.memEvictable
            (hinvw.diskEvictable.mono (Set.subset_insert _ _)) hinvw.nonEmpty
        · exact hw
    | none =>
        refine flushNew_spec hinvv ?_ hsparedv hheldv hbv hmem hdisk ?_ hrefsv ?_
        · exact hprivate.moves hv.runs fun _ h => h
        · rw [hvs]
          exact halive
        · intro hD k hk
          rw [hvs]
          exact hfull hD hdisk k hk
  refine hflush.mono ?_
  rintro st w ⟨hw, hwdisk⟩
  have hranw := hv.trans hw
  -- a failure is recorded
  have hrecord : Spec sc.T (Prog.when (!st.ok) (emit (.flushFailed key r (w.items r))))
      (fun _ x => Ran sc (Action.InDisk own) s g x (flushGhost g key.cacheId st) ∧
        ((∃ b', x.HasBlock r key.blockIndex b' ∧ b'.diskBlockItem ≠ none) ∨
          .flushFailed key r (x.items r) ∈ x.trace) ∧ x = { w with trace := x.trace }) w := by
    refine spec_when (fun _ => ?_) fun hok => ⟨hranw, Or.inl ?_, rfl⟩
    · refine (emit_spec hranw (.flushFailed key r _) trivial).mono ?_
      rintro _ _ ⟨hx, rfl⟩
      exact ⟨hx, Or.inr (List.mem_append_right _ List.mem_cons_self), rfl⟩
    · exact (hwdisk.stored (by simpa using hok)).hasBlock hbv
  refine hrecord.mono ?_
  rintro _ x ⟨hx, hcause, hsame⟩
  refine (lock_spec hx true key).mono ?_
  rintro _ y ⟨hy, hyeq⟩
  have hcausey : (∃ b', y.HasBlock r key.blockIndex b' ∧ b'.diskBlockItem ≠ none) ∨
      .flushFailed key r (y.items r) ∈ y.trace := by
    rw [hyeq]
    exact hcause
  refine (dropMem_spec hy (hy.inv hinv) hchange fun _ => ⟨?_, ?_⟩).mono ?_
  · rw [hy.static.hasDiskLayer]
    exact hlayer
  · exact hcausey.imp_right fun h => ⟨key, rfl, h⟩
  rintro _ z ⟨hz, heffect⟩
  have hzran : Ran sc (Action.InDisk own) s g z (flushGhost g key.cacheId st) :=
    Ran.dropped hz hinv heffect hcausey
  refine (unlock_spec hzran true key).mono ?_
  rintro _ t ⟨ht, hteq⟩
  rw [spec_pure]
  have hitem : t.items r =
      (w.items r).updateBlock key.blockIndex fun b => { b with memBlockItem := none } := by
    rw [hteq, heffect.eq]
    dsimp only
    rw [State.withItem_items, if_pos rfl, hyeq, hsame]
  have hvitem : v.items r = s.items r := by rw [hvs]
  refine ⟨ht, fun b' hb' => ?_, ?_, ?_, fun hok => ?_⟩
  · rw [hteq] at hb'
    obtain ⟨b₁, _, rfl⟩ := State.hasBlock_updateBlock.mp (heffect.hasBlock.mp hb')
    rw [if_pos ⟨rfl, rfl⟩]
  · rw [hteq, heffect.eq, hyeq, hsame]
    exact hwdisk.find.trans (by rw [hvs]; rfl)
  · rw [hitem]
    cases hok : st.ok with
    | true =>
        rw [← hvitem]
        exact (hwdisk.stored hok).moved.keepsDisk
    | false =>
        rw [hwdisk.failed hok, hvitem]
        exact CacheItem.keepsDisk_updateBlock fun _ _ _ hid => hid
  · rw [hitem, ← hvitem]
    exact (hwdisk.stored hok).moved

/-! ## Deletion -/

theorem deleteBlock_spec (hinv : Inv sc ⟨s, g⟩) (hfound : s.find key.cacheId = some r)
    (hchange : Action.InDisk own (.change r))
    (huntrack : Action.InDisk own (.untrack key.cacheId)) (hheld : .item r ∈ s.locals)
    (hlocked : ¬ s.Locked r)
    (hcause : (s.items r).pinned = true → s.Partial pf r key.blockIndex) :
    Spec sc.T (deleteBlock pf r key)
      (fun _ t => Ran sc (Action.InDisk own) s g t g ∧ MemSettled pf key t) s := by
  have hstart : Ran sc (Action.InDisk own) s g s g := .refl trivial
  unfold deleteBlock
  simp only [spec_bind]
  refine (deleting_spec hstart hcause).mono ?_
  rintro _ u ⟨hu, hueq⟩
  refine (lock_spec hu true key).mono ?_
  rintro _ v ⟨hv, hveq⟩
  have hvlocked : ¬ v.Locked r := by
    rw [hveq, hueq]
    exact hlocked
  have hvevent : .blockDeleted key r ∈ v.trace := by
    rw [hveq, hueq]
    exact List.mem_append_right _ List.mem_cons_self
  refine (clearBlock_spec hv (hv.inv hinv) hchange fun _ =>
    ⟨⟨key, hvevent⟩, hvlocked⟩).mono ?_
  rintro _ w ⟨hw, heffect⟩
  refine (unlock_spec hw true key).mono ?_
  rintro _ x ⟨hx, hxeq⟩
  have hfoundx : x.find key.cacheId = some r := by
    rw [hxeq, heffect.eq, hveq, hueq]
    exact hfound
  have hcleared : ∀ b, x.HasBlock r key.blockIndex b → b.memBlockItem = none := by
    intro b hb
    rw [hxeq] at hb
    obtain ⟨b₀, _, rfl⟩ := State.hasBlock_updateBlock.mp (heffect.hasBlock.mp hb)
    rw [if_pos ⟨rfl, rfl⟩]
  have hrelease := (spec_bind _).mp
    (releaseIfEmpty_spec (hx.inv hinv) hx.other hfoundx (hx.locals _ hheld) hchange huntrack rfl)
  refine hrelease.mono fun removed y hy => ?_
  -- the status is the same whether the item is removed or not
  have hboth : Spec sc.T (if removed = true then removeCacheItem pf key.cacheId r else pure ())
      (fun _ t => Ran sc (Action.InDisk own) s g t g ∧ MemSettled pf key t) y := by
    refine hy.mono ?_
    rintro _ t ⟨ht, hcase⟩
    refine ⟨hx.trans ht, fun r' b hfind hb hmem _ => ?_⟩
    rcases hcase with rfl | hnone
    · rw [hfoundx] at hfind
      cases hfind
      exact absurd (hcleared b hb) hmem
    · rw [hnone] at hfind
      cases hfind
  by_cases hremoved : removed = true
  · rw [if_pos hremoved] at hboth ⊢
    simp only [spec_bind, spec_pure]
    exact hboth
  · rw [if_neg hremoved] at hboth ⊢
    exact hboth

end StarCacheImpl

section Runtime

namespace StarCacheImpl

variable {rt : Runtime} {sc : Scenario rt.toPlatform} {s t : State} {g : Ghost}
  {own : Option Own} {r : ItemRef} {key : BlockKey}

/-! ## The decision -/

/-- Blocks are flushed only to a cache with disks; a block of a pinned item is never
deleted, and is kept only when there are no disks. -/
theorem flushAdmission_spec (rt : Runtime) (n : Nat) (s : State) (item : CacheItem)
    (key : BlockKey) :
    (flushAdmission rt n s item key = .flush → s.hasDiskLayer = true) ∧
      (flushAdmission rt n s item key = .delete → item.pinned = false) ∧
      (flushAdmission rt n s item key = .skip → item.pinned = true → s.hasDiskLayer = false) := by
  unfold flushAdmission
  cases item.pinned <;> cases s.hasDiskLayer <;> simp

/-- The segments of a block of an item hold its bytes. -/
theorem segments_ok (hinv : Inv sc ⟨s, g⟩) (hD : sc.D) (hlive : r ∈ s.liveItems) {i : Nat}
    {b : BlockItem} {block : MemBlockItem} (hb : s.HasBlock r i b)
    (hmem : b.memBlockItem = some block)
    (hfull : block.state = .dirty ∨
      continuousSegmentsSize (block.listSegments.map s.segments) 0 =
        (s.items r).blockSize rt.flags i) :
    ∀ ref ∈ block.listSegments,
      SegmentOk rt.flags (blockPart rt.flags (sc.val r) i) (s.segments ref) ∧
        ∀ k, (s.segments ref).Covers rt.flags k → Resident block.slices k := by
  intro ref href
  obtain ⟨j, hj⟩ := List.mem_iff_getElem?.mp ((mem_listSegments block.slices block.state ref).mp
    href)
  have hok := hinv.content hD r hlive
  have hslices := (hok.mem i b block hb hmem).slices
  refine ⟨?_, fun k hk => ⟨ref, (hslices.segment j ref hj).2.2 k hk⟩⟩
  rcases hfull with hdirty | hfull
  · exact hslices.segmentOk hj fun _ _ => Or.inr hdirty
  · have hlt : i < (s.items r).blockCount rt.flags := by
      have := (List.getElem?_eq_some_iff.mp hb).1
      rwa [hinv.wf.length r hlive] at this
    rw [hok.blockSize (sc.data hD).toGeometry hlt] at hfull
    exact (hslices.of_full hfull).segmentOk hj fun _ _ => trivial

/-- The fullness test implies that the segments cover the block. -/
theorem segments_cover (hinv : Inv sc ⟨s, g⟩) (hD : sc.D) (hlive : r ∈ s.liveItems) {i : Nat}
    {b : BlockItem} {block : MemBlockItem} (hb : s.HasBlock r i b)
    (hmem : b.memBlockItem = some block)
    (hfull : continuousSegmentsSize (block.listSegments.map s.segments) 0 =
      (s.items r).blockSize rt.flags i) :
    ∀ k, k * rt.flags.sliceSize < (blockPart rt.flags (sc.val r) i).length →
      ∃ ref ∈ block.listSegments, (s.segments ref).Covers rt.flags k := by
  have hok := hinv.content hD r hlive
  have hlt : i < (s.items r).blockCount rt.flags := by
    have := (List.getElem?_eq_some_iff.mp hb).1
    rwa [hinv.wf.length r hlive] at this
  intro k hk
  rw [← hok.blockSize (sc.data hD).toGeometry hlt, ← hfull] at hk
  obtain ⟨ref, href⟩ := continuous_resident _ 0
    (fun ref href => (segments_ok hinv hD hlive hb hmem (Or.inr hfull) ref href).2)
    (fun _ h => by omega) k hk
  exact ⟨ref, (mem_listSegments block.slices block.state ref).mpr (List.mem_of_getElem? href),
    ((hok.mem i b block hb hmem).slices.segment k ref href).2.1⟩

/-! ## The whole flush -/

/-- With the handle taken if there is one, the id is not free to be evicted. -/
theorem not_idle_of_touched {tracked : Bool} {id : CacheId}
    (htracked : tracked = true → s.DiskBusy pf id)
    (huntracked : tracked = false → ¬ s.DiskTracked pf id) :
    ¬ s.diskTracker.Idle pf.cacheIdHash id := by
  intro hidle
  cases tracked with
  | true => exact (htracked rfl).2 hidle
  | false => exact huntracked rfl hidle.tracked

/-- The end of a flush that went to disk: the id of the item is tracked when it has to be. -/
theorem trackFlushed_spec (hinv : Inv sc ⟨s, g⟩) {st : Status} {tracked : Bool} {u : State}
    (hran : Ran sc (Action.InDisk own) s g u (flushGhost g key.cacheId st))
    (hprivate : s.Private own) (hfound : s.find key.cacheId = some r)
    (htracked : tracked = true → s.DiskBusy rt.toPlatform key.cacheId)
    (huntracked : tracked = false → ¬ s.DiskTracked rt.toPlatform key.cacheId) (size : Nat) :
    Spec sc.T (Prog.when (st.ok && !tracked && !(s.items r).pinned)
      (DiskCache.evictTrack rt.toPlatform key.cacheId size))
      (fun _ t => Ran sc (Action.InDisk own) s g t g ∧ (∀ id, t.find id = u.find id) ∧
        t.items = u.items) u := by
  have hinvu := hran.inv hinv
  have hfind : ∀ r', u.find key.cacheId = some r' → r' = r := by
    intro r' h
    have := Runs.find hran.runs (fun h => h) h
    exact Option.some.inj (this.symm.trans hfound)
  cases hok : st.ok with
  | false =>
      unfold flushGhost at hran
      rw [if_neg (by simp [hok])] at hran
      exact ⟨hran, fun _ => rfl, rfl⟩
  | true =>
      have hghost : flushGhost g key.cacheId st =
          { g with diskOwed := insert key.cacheId g.diskOwed } := by
        unfold flushGhost
        rw [if_pos hok]
      rw [hghost] at hran hinvu
      refine spec_when (fun hcond => ?_) fun hcond => ?_
      · have hnot : tracked = false := by
          cases tracked <;> simp_all
        have hfree := Runs.not_diskBusy hran.runs hinv (fun h => h) (fun _ h => h)
          fun hbusy => huntracked hnot hbusy.1
        have hunpinned : ∀ r', u.find key.cacheId = some r' → (u.items r').pinned = false := by
          intro r' h
          obtain rfl := hfind r' h
          have hsame := Runs.pinned hran.runs (hinv.wf.indexed_lt hfound) (fun h => h)
          dsimp only at hsame
          rw [hsame]
          simpa using (Bool.and_eq_true_iff.mp hcond).2
        have hP : Action.InDisk own (.track key.cacheId) := hprivate.id_ne hfound
        refine (diskTrack_spec hran hinvu key.cacheId hP size (Or.inl hfree) hunpinned).mono ?_
        rintro _ t ⟨ht, hteq, hin⟩
        have hinvt := ht.inv hinv
        refine ⟨ht.settle hinvt.memEvictable (hinvt.diskEvictable.drop fun _ _ _ _ _ _ _ => ?_)
          hinvt.nonEmpty, fun _ => by rw [hteq]; rfl, by rw [hteq]⟩
        exact (hin key.cacheId).mpr (Or.inl rfl)
      · refine ⟨hran.settle hinvu.memEvictable
          (hinvu.diskEvictable.drop fun r' i b hf _ _ hpinned => ?_) hinvu.nonEmpty,
          fun _ => rfl, rfl⟩
        obtain rfl := hfind r' hf
        have hsame := Runs.pinned hran.runs (hinv.wf.indexed_lt hfound) (fun h => h)
        dsimp only at hpinned hsame
        rw [hpinned] at hsame
        have htrue : tracked = true := by
          rw [← hsame] at hcond
          cases tracked <;> simp_all
        rcases Runs.diskBusy hran.runs hinv (fun h => h) (fun _ h => h) (fun h => h)
          (Or.inl (htracked htrue)) with hbusy | hgone
        · exact hbusy.1
        · have : some r' = none := hf.symm.trans hgone
          cases this

/-- The branch of `_flush_block` for a block that goes to disk. -/
theorem flushBranch_spec (hinv : Inv sc ⟨s, g⟩) (hprivate : s.Private own)
    (hfound : s.find key.cacheId = some r) (hheld : .item r ∈ s.locals)
    (hlocked : ¬ s.Locked r) (hlayer : s.hasDiskLayer = true) {b : BlockItem}
    {memBlock : MemBlockItem} (hb : s.HasBlock r key.blockIndex b)
    (hmem : b.memBlockItem = some memBlock) (hout : s.Unflushed r key.blockIndex) {tracked : Bool}
    (htracked : tracked = true → s.DiskBusy rt.toPlatform key.cacheId)
    (huntracked : tracked = false → ¬ s.DiskTracked rt.toPlatform key.cacheId) (size : Nat) :
    Spec sc.T (do
        require (blockSliceCount rt.flags ≠ 0)
        if b.diskBlockItem = none ∧
            continuousSegmentsSize (memBlock.listSegments.map s.segments) 0 ≠
              (s.items r).blockSize rt.flags key.blockIndex then
          deleteBlock rt.toPlatform r key
        else do
          let st ← flushBlockSegments rt.toPlatform r key memBlock.listSegments
          Prog.when (st.ok && !tracked && !(s.items r).pinned)
            (DiskCache.evictTrack rt.toPlatform key.cacheId size)
          pure st)
      (fun _ t => Ran sc (Action.InDisk own) s g t g ∧ MemSettled rt.toPlatform key t) s := by
  have hlive : r ∈ s.liveItems := hinv.wf.local_alive hheld
  have hchange : Action.InDisk own (.change r) := hprivate.item_ne hfound
  have huntrack : Action.InDisk own (.untrack key.cacheId) := hprivate.id_ne hfound
  simp only [spec_bind]
  refine spec_require (fun hT => ?_) fun _ => ?_
  · have hgeo := (sc.data (sc.total hT)).toGeometry
    rw [hgeo.blockSliceCount]
    exact Nat.pos_iff_ne_zero.mp (Nat.div_pos hgeo.slice_le rt.flags.sliceSize_pos)
  refine spec_ite (fun hpart => ?_) fun hwhole => ?_
  · exact deleteBlock_spec hinv hfound hchange huntrack hheld hlocked fun _ =>
      ⟨b, memBlock, hb, hmem, hpart⟩
  simp only [spec_bind]
  have halive : ∀ ref ∈ memBlock.listSegments, ref ∈ s.liveSegments := fun ref href =>
    hinv.wf.mem_alive hlive hb hmem ref
      ((mem_listSegments memBlock.slices memBlock.state ref).mp href)
  have hspared : s.Spared rt.toPlatform ⟨r, key.cacheId⟩ (s.items r) :=
    ⟨hfound, rfl, not_idle_of_touched htracked huntracked⟩
  have hfull : b.diskBlockItem = none →
      continuousSegmentsSize (memBlock.listSegments.map s.segments) 0 =
        (s.items r).blockSize rt.flags key.blockIndex := fun hnone => by
    by_contra hne
    exact hwhole ⟨hnone, hne⟩
  refine (flushBlockSegments_spec hinv hprivate hspared hheld hlayer hb (by simp [hmem]) halive
    (fun hD ref href =>
      (segments_ok hinv hD hlive hb hmem ((hout b memBlock hb hmem).imp_right hfull) ref href).1)
    fun hD hnone => segments_cover hinv hD hlive hb hmem (hfull hnone)).mono ?_
  rintro st u ⟨hu, hdropped, _⟩
  refine (trackFlushed_spec hinv hu hprivate hfound htracked huntracked size).mono ?_
  rintro _ t ⟨ht, hfind, hitems⟩
  rw [spec_pure]
  refine ⟨ht, fun r' b' hf hb' hne _ => ?_⟩
  rw [hfind] at hf
  have hf' := Runs.find hu.runs (fun h => h) hf
  rw [hfound] at hf'
  cases hf'
  unfold State.HasBlock at hb'
  rw [hitems] at hb'
  exact absurd (hdropped b' hb') hne

/-- `_flush_block` under the handle of the item. -/
theorem flushTouched_spec (hinv : Inv sc ⟨s, g⟩) (hprivate : s.Private own)
    (hfound : s.find key.cacheId = some r) (hheld : .item r ∈ s.locals)
    (hlt : key.blockIndex < (s.items r).blockCount rt.flags)
    (hout : s.Unflushed r key.blockIndex) (hfree : ¬ s.MemBusy rt.toPlatform key) {tracked : Bool}
    (htracked : tracked = true → s.DiskBusy rt.toPlatform key.cacheId)
    (huntracked : tracked = false → ¬ s.DiskTracked rt.toPlatform key.cacheId) :
    Spec sc.T (flushTouched rt r key tracked) (fun _ t => Ran sc (Action.InDisk own) s g t g ∧
      MemSettled rt.toPlatform key t) s := by
  have hstart : Ran sc (Action.InDisk own) s g s g := .refl trivial
  have hlive : r ∈ s.liveItems := hinv.wf.local_alive hheld
  have hchange : Action.InDisk own (.change r) := hprivate.item_ne hfound
  have huntrack : Action.InDisk own (.untrack key.cacheId) := hprivate.id_ne hfound
  unfold flushTouched
  simp only [spec_bind]
  refine getBlock_spec (fun _ => by rwa [hinv.wf.length r hlive]) fun b hb => ?_
  cases hmem : b.memBlockItem with
  | none =>
      refine ⟨hstart, fun r' b' hf hb' hne _ => ?_⟩
      rw [hfound] at hf
      cases hf
      obtain rfl : b' = b := Option.some.inj (hb'.symm.trans hb)
      exact absurd hmem hne
  | some memBlock =>
      simp only [spec_bind, spec_read]
      refine (hold_spec hstart (hinv.wf.mem_alive hlive hb hmem)).mono ?_
      rintro _ u ⟨hu, hueq⟩
      refine (tick_spec hu).mono ?_
      rintro n v ⟨hv, _, hveq⟩
      have hvs : v = { s with locals := v.locals, clock := v.clock } := by rw [hveq, hueq]
      have hinvv := hv.inv hinv
      have hfoundv : v.find key.cacheId = some r := by
        rw [hvs]
        exact hfound
      have hfreev : ¬ v.MemBusy rt.toPlatform key := by
        rw [hvs]
        exact hfree
      obtain ⟨hflush, hdelete, hskip⟩ := flushAdmission_spec rt n v (v.items r) key
      cases hadmission : flushAdmission rt n v (v.items r) key with
      | skip =>
          simp only [spec_bind]
          refine spec_when (fun _ => ?_) fun hpinned => ?_
          · refine (memTrack_spec hv hinvv key huntrack _ (Or.inl hfreev)).mono ?_
            rintro _ t ⟨ht, _, hin⟩
            rw [spec_pure]
            exact ⟨ht, fun _ _ _ _ _ _ => (hin key).mpr (Or.inl rfl)⟩
          · rw [spec_pure]
            have hpin : (v.items r).pinned = true := by simpa using hpinned
            refine ⟨hv, fun r' b' hf _ _ hlocked => ?_⟩
            rw [hfoundv] at hf
            cases hf
            exact absurd ⟨hpin, hskip hadmission hpin⟩ hlocked
      | delete =>
          have hunpinned := hdelete hadmission
          refine (deleteBlock_spec hinvv hfoundv hchange huntrack (hv.locals _ hheld)
            (fun hlocked => ?_) fun hpinned => ?_).mono fun _ t ht => ⟨hv.trans ht.1, ht.2⟩
          · exact Bool.false_ne_true (hunpinned.symm.trans hlocked.1)
          · exact (Bool.false_ne_true (hunpinned.symm.trans hpinned)).elim
      | flush =>
          have hlayer := hflush hadmission
          refine (flushBranch_spec hinvv (hprivate.moves hv.runs fun _ h => h) hfoundv
            (hv.locals _ hheld) (fun hlocked => ?_) hlayer ?_ hmem ?_ ?_ ?_
            (v.items r).size).mono fun _ t ht => ⟨hv.trans ht.1, ht.2⟩
          · exact Bool.false_ne_true (hlocked.2.symm.trans hlayer)
          · rw [hvs]
            exact hb
          · rw [hvs]
            exact hout
          · rw [hvs]
            exact htracked
          · rw [hvs]
            exact huntracked

/-- The flush of a block has come from `s` to its work, in the state `t`: it has asked the disk
policy for the id, and holds the handle if there is one. -/
structure AtTouched (pf : Platform) (key : BlockKey) (s : State) (handle : Option EvictionHandle)
    (t : State) : Prop where
  reached : DiskCache.evictTouch pf key.cacheId true s = some (handle, t)
  eq : t = { s with clock := s.clock + 1, diskTracker := t.diskTracker,
                    diskHandles := handle.toList ++ s.diskHandles }
  busy : handle.isSome = true → t.DiskBusy pf key.cacheId
  free : handle = none → ¬ t.DiskTracked pf key.cacheId

/-- `_flush_block`. -/
theorem flushBlock_walk {T : Prop} {Q : State → Prop} (hinv : Inv sc ⟨s, g⟩)
    (hfound : s.find key.cacheId = some r)
    (hwork : ∀ handle t, AtTouched rt.toPlatform key s handle t → Inv sc ⟨t, g⟩ →
      Runs sc (Action.InEvict own) ⟨s, g⟩ ⟨t, g⟩ →
        Spec T (flushTouched rt r key handle.isSome) (fun _ u =>
          Ran sc (Action.InDisk own) t g u g ∧ Q u) t)
    (hleave : ∀ t u v : State, Q t → Collects { t with locals := s.locals } u →
      v = { u with diskTracker := v.diskTracker, diskHandles := v.diskHandles } → Q v) :
    Spec T (flushBlock rt r key) (fun _ t => Ran sc (Action.InEvict own) s g t g ∧ Q t) s := by
  have hother : Action.InEvict own .other := trivial
  have htouch : Action.InEvict own .touchDisk := trivial
  have hreleased : (s.items r).released = false := hinv.wf.active _ r hfound
  unfold flushBlock
  simp only [spec_bind, spec_read]
  rw [hreleased, if_neg Bool.false_ne_true]
  simp only [spec_bind]
  refine (diskTouch_spec hinv hother htouch key.cacheId true).imp ?_
  rintro handle u hrun ⟨hu, hueq, hbusy, hfree⟩
  have hinvu := hinv.runs hu
  have hsame : u.locals = s.locals := by rw [hueq]
  have hstart : Ran sc (Action.InDisk own) u g u g := .refl trivial
  have hbody := hwork handle u ⟨hrun, hueq, hbusy, hfree rfl⟩ hinvu hu
  refine (scope_spec hstart (fun _ => g) (fun _ => Q) hinvu hbody).mono ?_
  rintro st v ⟨hv, hlocals, _, w, hw, heffect⟩
  rw [hsame] at hlocals heffect
  have hhandles : v.diskHandles = handle.toList ++ s.diskHandles := by
    rw [hv.diskHandles, hueq]
  refine (diskRelease_spec (hv.inv hinvu) htouch hhandles).mono ?_
  rintro _ t ⟨ht, hteq, _⟩
  rw [spec_pure]
  refine ⟨⟨hother, (hu.trans (hv.mono fun _ => Action.InDisk.inEvict).runs).trans ht, ?_, ?_, ?_⟩,
    ?_⟩
  · intro x hx
    rw [hteq]
    rw [hlocals]
    exact hx
  · rw [hteq]
    exact hv.memHandles.trans (by rw [hueq])
  · rw [hteq]
  · apply hleave w v t hw heffect
    rw [hteq]

theorem flushBlock_spec (hinv : Inv sc ⟨s, g⟩) (hprivate : s.Private own)
    (hfound : s.find key.cacheId = some r) (hheld : .item r ∈ s.locals)
    (hlt : key.blockIndex < (s.items r).blockCount rt.flags)
    (hout : s.Unflushed r key.blockIndex) (hfree : ¬ s.MemBusy rt.toPlatform key) :
    Spec sc.T (flushBlock rt r key) (fun _ t => Ran sc (Action.InEvict own) s g t g ∧
      MemSettled rt.toPlatform key t) s := by
  apply flushBlock_walk hinv hfound
  · intro handle t hat hinvt ht
    refine flushTouched_spec hinvt (hprivate.moves ht fun _ h => h) ?_ ?_ ?_ ?_ ?_ hat.busy
      fun hnone h => ?_
    · rw [hat.eq]
      exact hfound
    · rw [hat.eq]
      exact hheld
    · rw [hat.eq]
      exact hlt
    · rw [hat.eq]
      exact hout
    · rw [hat.eq]
      exact hfree
    · exact hat.free (by simpa using hnone) h
  · intro t u v ht heffect hv
    have hsettled : MemSettled rt.toPlatform key u := heffect.memSettled ht
    rw [hv]
    exact hsettled

end StarCacheImpl

end Runtime

end StarCache
