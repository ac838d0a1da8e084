import StarCache.Content.Fullness
import StarCache.Properties.Integrity
import StarCache.Properties.Merging

/-!
# Flushing

A memory block that is dropped because it is on disk, or that is flushed, costs the object nothing:
what could be read before can be read afterwards, with the same bytes. The evictions that make room
for the new disk block do not meet the object.
-/

namespace StarCache

open Prog MachineInt StarCacheImpl

/-! ## What can be read -/

/-- The bytes of slice `k` on disk, of a block of `n` bytes. -/
def diskSlice (flags : Flags) (files : Nat → Nat → Nat → UInt8) (id : BlockId) (n k : Nat) : IOBuf :=
  (List.range (min flags.sliceSize (n - k * flags.sliceSize))).map fun j =>
    diskByte flags files id (k * flags.sliceSize + j)

namespace State

variable (pf : Platform) (s : State)

/-- A byte of a disk block of `n` bytes, if the checksum of its slice is right. -/
def storedByte (id : BlockId) (n p : Nat) : Option UInt8 :=
  let k := p / pf.flags.sliceSize
  if pf.flags.enableDiskChecksum = true →
      s.checksums id k = pf.crc32c (diskSlice pf.flags s.files id n k) then
    some (diskByte pf.flags s.files id p)
  else none

/-- A byte of a block of `n` bytes, as it is read: from the segment of its slice if that is in
memory, else from disk. -/
def blockByte (b : BlockItem) (n p : Nat) : Option UInt8 :=
  match b.slices[p / pf.flags.sliceSize]? with
  | some (some g) => (s.segments g).buf[p - (s.segments g).offset]?
  | _ => b.diskBlockItem.bind fun id => s.storedByte pf id n p

/-- Byte `p` of block `i` of an item. -/
def itemByte (r : ItemRef) (i p : Nat) : Option UInt8 :=
  let n := (s.items r).blockSize pf.flags i
  if p < n then (s.items r).blocks[i]?.bind fun b => s.blockByte pf b n p else none

/-- The `n` bytes of an item from `o` on, if all of them can be read. -/
def readable (r : ItemRef) (o n : Nat) : Option IOBuf :=
  (List.range' o n).mapM fun p => s.itemByte pf r (p / pf.flags.blockSize) (p % pf.flags.blockSize)

end State

section Readable

variable {pf : Platform} {s t : State} {r : ItemRef} {value : IOBuf}

theorem diskSlice_eq {bytes : IOBuf} {id : BlockId} {k : Nat}
    (hslice : SliceOnDisk pf s bytes id k) :
    diskSlice pf.flags s.files id bytes.length k =
      (bytes.drop (k * pf.flags.sliceSize)).take pf.flags.sliceSize := by
  apply List.ext_getElem?
  intro j
  unfold diskSlice
  rw [List.getElem?_map, List.getElem?_take, List.getElem?_drop]
  by_cases hj : j < min pf.flags.sliceSize (bytes.length - k * pf.flags.sliceSize)
  · rw [List.getElem?_range hj, if_pos (by omega)]
    apply hslice.content
    · omega
    · rw [Nat.succ_mul]
      omega
    · omega
  · rw [List.getElem?_eq_none (by rw [List.length_range]; omega)]
    split
    · exact (List.getElem?_eq_none (by omega)).symm
    · rfl

/-- What a segment holds of its slice are bytes of the block. -/
theorem SlicesOk.byte {flags : Flags} {bytes : IOBuf} {W : Nat → Prop}
    {segments : SegmentRef → BlockSegment} {slices : List (Option SegmentRef)}
    (h : SlicesOk flags bytes W segments slices) {p : Nat} (hp : p < bytes.length)
    {x : SegmentRef} (hx : slices[p / flags.sliceSize]? = some (some x)) {byte : UInt8}
    (hbyte : (segments x).buf[p - (segments x).offset]? = some byte) : bytes[p]? = some byte := by
  obtain ⟨hpart, hcov, _⟩ := h.segment _ x hx
  obtain ⟨hlow, _⟩ := div_mul_bounds p flags.sliceSize_pos
  have hstart : (segments x).offset ≤ p := Nat.le_trans hcov.1 hlow
  have hlt := (List.getElem?_eq_some_iff.mp hbyte).1
  rw [hpart.content _ hlt (by omega)] at hbyte
  rwa [Nat.add_sub_cancel' hstart] at hbyte

/-- A block on disk holds its bytes, and their checksums. -/
theorem BlockOnDisk.byte {bytes : IOBuf} {id : BlockId} (h : BlockOnDisk pf s bytes id) {p : Nat}
    (hp : p < bytes.length) : s.storedByte pf id bytes.length p = bytes[p]? := by
  obtain ⟨hlow, hhigh⟩ := div_mul_bounds p pf.flags.sliceSize_pos
  have hslice := h (p / pf.flags.sliceSize) (Nat.lt_of_le_of_lt hlow hp)
  unfold State.storedByte
  dsimp only
  rw [diskSlice_eq hslice, if_pos hslice.checksum]
  exact hslice.content p hlow hhigh hp

/-- What is read of a block are its bytes. -/
theorem blockByte_some {bytes : IOBuf} {W : Nat → Prop} {b : BlockItem}
    (hmem : ∀ block, b.memBlockItem = some block →
      MemOk pf.flags bytes W s.segments block)
    (hdisk : ∀ id, b.diskBlockItem = some id → BlockOnDisk pf s bytes id) {p : Nat}
    (hp : p < bytes.length) {byte : UInt8}
    (h : s.blockByte pf b bytes.length p = some byte) : bytes[p]? = some byte := by
  unfold State.blockByte at h
  split at h
  next x hx =>
    unfold BlockItem.slices at hx
    cases hblock : b.memBlockItem with
    | none =>
        rw [hblock] at hx
        cases hx
    | some block =>
        rw [hblock] at hx
        exact (hmem block hblock).slices.byte hp hx h
  next =>
    obtain ⟨id, hid, hbyte⟩ := Option.bind_eq_some_iff.mp h
    rw [← hbyte]
    exact ((hdisk id hid).byte hp).symm

/-- A block whose segments and disk block are there as before is read as before. -/
theorem blockByte_same {bytes : IOBuf} {b : BlockItem}
    (hsegs : ∀ block : MemBlockItem, b.memBlockItem = some block → ∀ x, some x ∈ block.slices →
      t.segments x = s.segments x)
    (hs : ∀ id, b.diskBlockItem = some id → BlockOnDisk pf s bytes id)
    (ht : ∀ id, b.diskBlockItem = some id → BlockOnDisk pf t bytes id) {p : Nat}
    (hp : p < bytes.length) :
    t.blockByte pf b bytes.length p = s.blockByte pf b bytes.length p := by
  unfold State.blockByte
  split
  next x hx =>
    unfold BlockItem.slices at hx
    cases hblock : b.memBlockItem with
    | none =>
        rw [hblock] at hx
        cases hx
    | some block =>
        rw [hblock] at hx
        rw [hsegs block hblock x (List.mem_of_getElem? hx)]
  next =>
    cases hid : b.diskBlockItem with
    | none => rfl
    | some id =>
        rw [Option.bind_some, Option.bind_some, (ht id hid).byte hp, (hs id hid).byte hp]

section Item

variable {W : Nat → Nat → Prop}

theorem ItemOk.blockSize_of (hgeo : Geometry pf.flags) (hok : ItemOk pf W value s r)
    (hlen : (s.items r).blocks.length = (s.items r).blockCount pf.flags) {i : Nat} {b : BlockItem}
    (hb : s.HasBlock r i b) :
    (s.items r).blockSize pf.flags i = (blockPart pf.flags value i).length := by
  apply hok.blockSize hgeo
  rw [← hlen]
  exact (List.getElem?_eq_some_iff.mp hb).1

theorem itemByte_iff (hgeo : Geometry pf.flags) (hok : ItemOk pf W value s r)
    (hlen : (s.items r).blocks.length = (s.items r).blockCount pf.flags) {i p : Nat}
    {byte : UInt8} : s.itemByte pf r i p = some byte ↔
      p < (blockPart pf.flags value i).length ∧ ∃ b, s.HasBlock r i b ∧
        s.blockByte pf b (blockPart pf.flags value i).length p = some byte := by
  unfold State.itemByte
  dsimp only
  constructor
  · intro h
    split at h
    next hp =>
      obtain ⟨b, hb, hbyte⟩ := Option.bind_eq_some_iff.mp h
      rw [hok.blockSize_of hgeo hlen hb] at hp hbyte
      exact ⟨hp, b, hb, hbyte⟩
    next => cases h
  · intro h
    obtain ⟨hp, b, hb, hbyte⟩ := h
    have hsome : (s.items r).blocks[i]? = some b := hb
    rw [hok.blockSize_of hgeo hlen hb, if_pos hp, hsome]
    exact hbyte

end Item

theorem mapM_some {α β : Type} {f f' : α → Option β} (h : ∀ x y, f x = some y → f' x = some y)
    {xs : List α} {ys : List β} (hxs : xs.mapM f = some ys) : xs.mapM f' = some ys := by
  induction xs generalizing ys with
  | nil => exact hxs
  | cons x rest ih =>
      rw [List.mapM_cons] at hxs ⊢
      obtain ⟨y, hy, hrest⟩ := Option.bind_eq_some_iff.mp hxs
      obtain ⟨zs, hzs, heq⟩ := Option.bind_eq_some_iff.mp hrest
      rw [h x y hy, ← heq]
      change (rest.mapM f').bind _ = _
      rw [ih hzs]
      rfl

/-- When a block has moved to disk, what could be read still can. -/
theorem readable_of_moved {W : Nat → Nat → Prop} (hgeo : Geometry pf.flags)
    (hs : ItemOk pf W value s r) (ht : ItemOk pf W value t r)
    (hslen : (s.items r).blocks.length = (s.items r).blockCount pf.flags)
    (htlen : (t.items r).blocks.length = (t.items r).blockCount pf.flags)
    (hsegs : ∀ i b (block : MemBlockItem), s.HasBlock r i b → b.memBlockItem = some block →
      ∀ x, some x ∈ block.slices → t.segments x = s.segments x) {i : Nat}
    (hmoved : CacheItem.Moved i (s.items r) (t.items r)) {o n : Nat} {bytes : IOBuf}
    (h : s.readable pf r o n = some bytes) : t.readable pf r o n = some bytes := by
  obtain ⟨id, _, heq⟩ := hmoved
  apply mapM_some _ h
  intro q byte hread
  rw [itemByte_iff hgeo hs hslen] at hread
  rw [itemByte_iff hgeo ht htlen]
  obtain ⟨hp, b, hb, hbyte⟩ := hread
  refine ⟨hp, ?_⟩
  have hblock : ∀ b', t.HasBlock r (q / pf.flags.blockSize) b' ↔
      ∃ b₀, s.HasBlock r (q / pf.flags.blockSize) b₀ ∧
        b' = if i = q / pf.flags.blockSize then ⟨none, some id⟩ else b₀ := by
    intro b'
    rw [← State.updateBlock_getElem?, ← heq]
    rfl
  by_cases hi : i = q / pf.flags.blockSize
  · have hgone := (hblock _).mpr ⟨b, hb, (if_pos hi).symm⟩
    refine ⟨⟨none, some id⟩, hgone, ?_⟩
    rw [← blockByte_some (hs.mem _ b · hb ·) (hs.disk _ b · hb ·) hp hbyte]
    exact (ht.disk _ _ id hgone rfl).byte hp
  · have hsame := (hblock b).mpr ⟨b, hb, (if_neg hi).symm⟩
    refine ⟨b, hsame, ?_⟩
    rw [blockByte_same (hsegs _ b · hb ·) (hs.disk _ b · hb ·) (ht.disk _ b · hsame ·) hp]
    exact hbyte

end Readable

/-! ## The way to disk -/

/-- What an eviction does with a block in memory up to the question for its admission. The result
is the time of the question. -/
def askAdmission (pf : Platform) (key : BlockKey) (r : ItemRef) (memBlock : MemBlockItem) :
    Prog State Nat := do
  hold (.item r)
  lock true key
  hold (.memBlock memBlock)
  unlock true key
  let _ ← DiskCache.evictTouch pf key.cacheId true
  hold (.memBlock memBlock)
  tick

section Flush

variable {rt : Runtime} {sc : Scenario rt.toPlatform} {s t : State} {g : Ghost} {r : ItemRef}
  {key : BlockKey} {b : BlockItem} {memBlock : MemBlockItem}

/-- The block is admitted to the disk, finds room there and is written. -/
def Flushes (rt : Runtime) (r : ItemRef) (key : BlockKey) (memBlock : MemBlockItem)
    (ask : Prog State Nat) (s : State) : Prop :=
  ∃ n u st v, ask s = some (n, u) ∧ flushAdmission rt n u (u.items r) key = .flush ∧
    flushBlockSegments rt.toPlatform r key memBlock.listSegments u = some (st, v) ∧ st.ok = true

theorem Flushes.after {α : Type} {m : Prog State α} {f : α → Prog State Nat} {a : α}
    (h : Flushes rt r key memBlock (m >>= f) s) (hm : m s = some (a, t)) :
    Flushes rt r key memBlock (f a) t := by
  obtain ⟨n, u, st, v, hask, hflush⟩ := h
  rw [bind_of_eq hm] at hask
  exact ⟨n, u, st, v, hask, hflush⟩

/-- The block is on disk, or all of it is in memory, each slice up to its end. -/
def Complete (pf : Platform) (s : State) (r : ItemRef) (i : Nat) (b : BlockItem) : Prop :=
  b.diskBlockItem ≠ none ∨
    ∀ k, k * pf.flags.sliceSize < (s.items r).blockSize pf.flags i →
      ∃ x, b.slices[k]? = some (some x) ∧
        (s.segments x).Fills pf.flags ((s.items r).blockSize pf.flags i) k

theorem Complete.of_eq {pf : Platform} {i : Nat} (h : Complete pf s r i b)
    (hitem : t.items r = s.items r) (hsegs : t.segments = s.segments) : Complete pf t r i b := by
  unfold Complete
  rw [hitem, hsegs]
  exact h

/-- The segments of a complete block pass the test of the flush. -/
theorem Complete.full (h : Complete rt.toPlatform s r key.blockIndex b) (hinv : Inv sc ⟨s, g⟩)
    (hD : sc.D) (hlive : r ∈ s.liveItems) (hb : s.HasBlock r key.blockIndex b)
    (hmem : b.memBlockItem = some memBlock) (hnone : b.diskBlockItem = none) :
    continuousSegmentsSize (memBlock.listSegments.map s.segments) 0 =
      (s.items r).blockSize rt.flags key.blockIndex := by
  have hgeo := (sc.data hD).toGeometry
  have hok := hinv.content hD r hlive
  have hsize := hok.blockSize_of hgeo (hinv.wf.length r hlive) hb
  have hslices := (hok.mem _ b memBlock hb hmem).slices
  have hres : ∀ k, k * rt.flags.sliceSize < (blockPart rt.flags (sc.val r) key.blockIndex).length →
      ∃ x, memBlock.slices[k]? = some (some x) ∧ (s.segments x).Fills rt.flags
        (blockPart rt.flags (sc.val r) key.blockIndex).length k := by
    have hall := h.resolve_left (not_not.mpr hnone)
    unfold BlockItem.slices at hall
    rw [hmem, hsize] at hall
    exact hall
  have hfilled : SlicesOk rt.flags (blockPart rt.flags (sc.val r) key.blockIndex) (fun _ => True)
      s.segments memBlock.slices := by
    apply hslices.mono
    intro k x hx _
    right
    obtain ⟨hpart, hcov, _⟩ := hslices.segment k x hx
    obtain ⟨x', hx', hfills⟩ := hres k (Nat.lt_of_lt_of_le hcov.2 hpart.fits)
    obtain rfl : x' = x := Option.some.inj (Option.some.inj (hx'.symm.trans hx))
    exact hfills
  rw [hsize]
  apply hfilled.full
  · have := length_blockPart_le rt.flags (sc.val r) key.blockIndex
    have := hgeo.block_le
    omega
  · intro k hk
    obtain ⟨x, hx, _⟩ := hres k hk
    exact ⟨x, hx⟩

/-- The item is as before but for the block, which is on disk only. -/
structure MovedToDisk (s : State) (key : BlockKey) (r : ItemRef) (t : State) : Prop where
  moved : CacheItem.Moved key.blockIndex (s.items r) (t.items r)
  find : t.find key.cacheId = some r

theorem MovedToDisk.of_eq {s' t' : State} (h : MovedToDisk s key r t) (hs : s.items r = s'.items r)
    (hitem : t'.items r = t.items r) (hfind : t'.find key.cacheId = t.find key.cacheId) :
    MovedToDisk s' key r t' :=
  ⟨by rw [← hs, hitem]; exact h.moved, hfind.trans h.find⟩

/-- In the state in which the question is asked, the id of the item is not free to be evicted. -/
theorem askAdmission_spec (hinv : Inv sc ⟨s, g⟩) (hfound : s.find key.cacheId = some r)
    (hb : s.HasBlock r key.blockIndex b) (hmem : b.memBlockItem = some memBlock) :
    Spec True (askAdmission rt.toPlatform key r memBlock) (fun _ u =>
      Inv sc ⟨u, g⟩ ∧ u = { s with
        clock := u.clock, locks := u.locks, locals := u.locals, diskTracker := u.diskTracker,
        diskHandles := u.diskHandles } ∧
      .item r ∈ u.locals ∧ u.Spared rt.toPlatform ⟨r, key.cacheId⟩ (u.items r)) s := by
  have hstart : Ran sc (Action.InEvict none) s g s g := .refl trivial
  have hlive : r ∈ s.liveItems := hinv.wf.indexed_live hfound
  have halive : s.Alive (.item r) := hlive
  have hblock := hinv.wf.mem_alive hlive hb hmem
  unfold askAdmission
  simp only [spec_bind]
  apply (hold_spec hstart halive).mono
  intro _ u hu
  obtain ⟨hu, hueq⟩ := hu
  apply (lock_spec hu true key).mono
  intro _ v hv
  obtain ⟨hv, hveq⟩ := hv
  have hvs : v = { s with locals := .item r :: s.locals, locks := v.locks } := by rw [hveq, hueq]
  have halivev : v.Alive (.memBlock memBlock) := by
    rw [hvs]
    exact hblock
  apply (hold_spec hv halivev).mono
  intro _ w hw
  obtain ⟨hw, hweq⟩ := hw
  apply (unlock_spec hw true key).mono
  intro _ x hx
  obtain ⟨hx, hxeq⟩ := hx
  have hxs : x = { s with locals := .memBlock memBlock :: .item r :: s.locals, locks := x.locks } := by
    rw [hxeq, hweq, hvs]
  have hother : Action.InEvict none .other := trivial
  have htouch : Action.InEvict none .touchDisk := trivial
  apply (diskTouch_spec (hx.inv hinv) hother htouch key.cacheId true).mono
  intro handle y hy
  obtain ⟨hy, hyeq, hbusy, hfree⟩ := hy
  have hinvy := (hx.inv hinv).runs hy
  have hstarty : Ran sc (Action.InEvict none) y g y g := .refl trivial
  have halivey : y.Alive (.memBlock memBlock) := by
    rw [hyeq, hxs]
    exact hblock
  apply (hold_spec hstarty halivey).mono
  intro _ z hz
  obtain ⟨hz, hzeq⟩ := hz
  apply (tick_spec hz).mono
  intro n u' hu'
  obtain ⟨hu', _, hueq'⟩ := hu'
  have hus : u' = { s with
      clock := u'.clock, locks := u'.locks, locals := u'.locals, diskTracker := y.diskTracker,
      diskHandles := u'.diskHandles } := by
    rw [hueq', hzeq, hyeq, hxs]
  refine ⟨hu'.inv hinvy, ?_, ?_, ?_, rfl, ?_⟩
  · rw [hueq', hzeq, hyeq, hxs]
  · rw [hueq', hzeq, hyeq, hxs]
    exact List.mem_cons_of_mem _ (List.mem_cons_of_mem _ List.mem_cons_self)
  · rw [hus]
    exact hfound
  · rw [hus]
    apply not_idle_of_touched hbusy
    intro hnone
    exact hfree rfl (by simpa using hnone)

theorem flushTouched_flushes (hinv : Inv sc ⟨s, g⟩) (hD : sc.D)
    (hfound : s.find key.cacheId = some r) (hheld : .item r ∈ s.locals)
    (hb : s.HasBlock r key.blockIndex b) (hmem : b.memBlockItem = some memBlock)
    (hcomplete : Complete rt.toPlatform s r key.blockIndex b)
    (hout : memBlock.state = .dirty ∨ b.diskBlockItem = none) {tracked : Bool}
    (htracked : tracked = true → s.DiskBusy rt.toPlatform key.cacheId)
    (huntracked : tracked = false → ¬ s.DiskTracked rt.toPlatform key.cacheId)
    (hflush : Flushes rt r key memBlock (do hold (.memBlock memBlock); tick) s) :
    Spec sc.T (flushTouched rt r key tracked) (fun _ t =>
      Ran sc (Action.InDisk none) s g t g ∧ MovedToDisk s key r t) s := by
  have hstart : Ran sc (Action.InDisk none) s g s g := .refl trivial
  have hlive : r ∈ s.liveItems := hinv.wf.local_alive hheld
  have hnone : ∀ u : State, u.Private none := fun _ _ h => by cases h
  unfold flushTouched
  simp only [spec_bind]
  apply getBlock_spec fun _ => (List.getElem?_eq_some_iff.mp hb).1
  intro b' hb'
  obtain rfl : b' = b := Option.some.inj (hb'.symm.trans hb)
  rw [hmem]
  simp only [spec_bind, spec_read]
  apply (hold_spec hstart (hinv.wf.mem_alive hlive hb hmem)).imp
  intro _ u hrun hu
  obtain ⟨hu, hueq⟩ := hu
  have hflush := hflush.after hrun
  apply (tick_spec hu).imp
  intro n v hrun hv
  obtain ⟨hv, _, hveq⟩ := hv
  obtain ⟨n', v', st, w, hask, hadmission, hsegments, hok⟩ := hflush
  obtain ⟨rfl, rfl⟩ := Prod.mk.inj (Option.some.inj (hask.symm.trans hrun))
  have hvs : v' = { s with locals := v'.locals, clock := v'.clock } := by rw [hveq, hueq]
  have hinvv := hv.inv hinv
  have hfoundv : v'.find key.cacheId = some r := by
    rw [hvs]
    exact hfound
  have hbv : v'.HasBlock r key.blockIndex b' := by
    rw [hvs]
    exact hb
  have hlivev : r ∈ v'.liveItems := by
    rw [hvs]
    exact hlive
  have hlayer : v'.hasDiskLayer = true := (flushAdmission_spec rt _ v' _ key).1 hadmission
  have htracked : tracked = true → v'.DiskBusy rt.toPlatform key.cacheId := by
    rw [hvs]
    exact htracked
  have huntracked : tracked = false → ¬ v'.DiskTracked rt.toPlatform key.cacheId := by
    rw [hvs]
    exact huntracked
  have hwhole : b'.diskBlockItem = none →
      continuousSegmentsSize (memBlock.listSegments.map v'.segments) 0 =
        (v'.items r).blockSize rt.flags key.blockIndex := by
    rw [hvs]
    exact hcomplete.full hinv hD hlive hb hmem
  rw [hadmission]
  simp only [spec_bind]
  have hgeo := (sc.data hD).toGeometry
  refine spec_require (fun _ => ?_) fun _ => ?_
  · rw [hgeo.blockSliceCount]
    exact Nat.pos_iff_ne_zero.mp (Nat.div_pos hgeo.slice_le rt.flags.sliceSize_pos)
  rw [if_neg fun hpartial => hpartial.2 (hwhole hpartial.1)]
  simp only [spec_bind]
  have halive : ∀ ref ∈ memBlock.listSegments, ref ∈ v'.liveSegments := fun ref href =>
    hinvv.wf.mem_alive hlivev hbv hmem ref
      ((mem_listSegments memBlock.slices memBlock.state ref).mp href)
  have hspared : v'.Spared rt.toPlatform ⟨r, key.cacheId⟩ (v'.items r) :=
    ⟨hfoundv, rfl, not_idle_of_touched htracked huntracked⟩
  apply (flushBlockSegments_spec hinvv (hnone v') hspared (hv.locals _ hheld) hlayer hbv
    (by simp [hmem]) halive
    (fun hD ref href =>
      (segments_ok hinvv hD hlivev hbv hmem (hout.imp_right hwhole) ref href).1)
    fun hD hnodisk => segments_cover hinvv hD hlivev hbv hmem (hwhole hnodisk)).imp
  · intro st' w' hrun hw
    obtain ⟨hw, _, hfind, _, hmoved⟩ := hw
    obtain ⟨rfl, rfl⟩ := Prod.mk.inj (Option.some.inj (hsegments.symm.trans hrun))
    have hmoved := hmoved hok
    apply (trackFlushed_spec hinvv hw (hnone v') hfoundv htracked huntracked _).mono
    intro _ x hx
    obtain ⟨hx, hxfind, hxitems⟩ := hx
    rw [spec_pure]
    refine ⟨hv.trans hx, ?_, (hxfind _).trans (hfind.trans hfoundv)⟩
    have hitem : v'.items r = s.items r := by rw [hvs]
    rw [hxitems, ← hitem]
    exact hmoved

theorem flushBlock_flushes (hinv : Inv sc ⟨s, g⟩) (hD : sc.D)
    (hfound : s.find key.cacheId = some r) (hheld : .item r ∈ s.locals)
    (hb : s.HasBlock r key.blockIndex b) (hmem : b.memBlockItem = some memBlock)
    (hcomplete : Complete rt.toPlatform s r key.blockIndex b)
    (hout : memBlock.state = .dirty ∨ b.diskBlockItem = none)
    (hflush : Flushes rt r key memBlock (do
      let _ ← DiskCache.evictTouch rt.toPlatform key.cacheId true
      hold (.memBlock memBlock)
      tick) s) :
    Spec sc.T (flushBlock rt r key) (fun _ t =>
      Ran sc (Action.InEvict none) s g t g ∧ MovedToDisk s key r t) s := by
  apply flushBlock_walk hinv hfound
  · intro handle t hat hinvt _
    have hflush := hflush.after hat.reached
    have hitem : t.items r = s.items r := by rw [hat.eq]
    have hbody : Spec sc.T (flushTouched rt r key handle.isSome) (fun _ u =>
        Ran sc (Action.InDisk none) t g u g ∧ MovedToDisk t key r u) t := by
      apply flushTouched_flushes hinvt hD ?_ ?_ ?_ hmem (hcomplete.of_eq hitem ?_) hout hat.busy ?_
        hflush
      · rw [hat.eq]
        exact hfound
      · rw [hat.eq]
        exact hheld
      · rw [hat.eq]
        exact hb
      · rw [hat.eq]
      · intro hnone
        exact hat.free (by simpa using hnone)
    apply hbody.mono
    intro _ u hu
    exact ⟨hu.1, hu.2.of_eq hitem rfl rfl⟩
  · intro t u v ht heffect hv
    apply ht.of_eq rfl
    · rw [hv, heffect.eq]
    · rw [hv]
      exact heffect.find _

/-- Both ways on which a block leaves memory without a loss. -/
theorem processEvictedMemItem_moves (hinv : Inv sc ⟨s, g⟩) (hD : sc.D)
    (hfound : s.find key.cacheId = some r) (hb : s.HasBlock r key.blockIndex b)
    (hmem : b.memBlockItem = some memBlock)
    (hcomplete : Complete rt.toPlatform s r key.blockIndex b)
    (hway : (memBlock.state ≠ .dirty ∧ b.diskBlockItem ≠ none) ∨
      Flushes rt r key memBlock (askAdmission rt.toPlatform key r memBlock) s) :
    Spec sc.T (processEvictedMemItem rt key r) (fun _ t =>
      Ran sc (Action.InEvict none) s g t g ∧ MovedToDisk s key r t) s := by
  apply processEvictedMemItem_walk hinv hfound (fun _ h => by cases h) hb hmem
  · intro hdirty t hat hinvt _
    have hflush := hway.resolve_left fun hclean => hdirty.elim hclean.1 hclean.2
    obtain ⟨u, v, w, hhold, hlock, hhold', hunlock⟩ := hat.reached
    unfold askAdmission at hflush
    have hflush := (((hflush.after hhold).after hlock).after hhold').after hunlock
    have hitem : t.items r = s.items r := by rw [hat.eq]
    have hbody : Spec sc.T (flushBlock rt r key) (fun _ u =>
        Ran sc (Action.InEvict none) t g u g ∧ MovedToDisk t key r u) t := by
      apply flushBlock_flushes hinvt hD ?_ ?_ ?_ hmem (hcomplete.of_eq hitem ?_) hdirty hflush
      · rw [hat.eq]
        exact hfound
      · rw [hat.eq]
        exact List.mem_cons_of_mem _ List.mem_cons_self
      · rw [hat.eq]
        exact hb
      · rw [hat.eq]
    apply hbody.mono
    intro _ u hu
    exact ⟨hu.1, hu.2.of_eq hitem rfl rfl⟩
  · -- the block is on disk already
    intro hclean t u v ht heffect hv
    obtain ⟨id, hid⟩ := Option.ne_none_iff_exists'.mp (not_or.mp hclean).2
    refine ⟨?_, ?_⟩
    · rw [hv, heffect.eq]
      dsimp only
      rw [State.withItem_items, if_pos rfl, ht]
      exact (CacheItem.stored_self hb hid).moved
    · rw [hv]
      exact (heffect.find _).trans (by rw [ht]; exact hfound)
  · intro t u ht heffect
    apply ht.of_eq rfl
    · rw [heffect.eq]
    · exact heffect.find _

end Flush

/-! ## States in the middle of a call -/

/-- What the steps of a call make of the state before it, in a run with objects of at most 2^31
bytes; the operations are runs of these steps. -/
inductive Midway {rt : Runtime} (hdata : DataHyp rt.toPlatform) (options : CacheOptions) :
    State → Prop
  | mk {history : List Record} {s₀ s : State} {val : ItemRef → IOBuf} {g : Ghost} (c : Call)
      (run : Run rt options history s₀)
      (small : ∀ record ∈ history, record.call.Bounded 2147483648) (small_call : c.Bounded 2147483648)
      (objects : Sound { Scenario.bytes hdata with val } .all history s₀)
      (steps : Runs (Scenario.given { Scenario.bytes hdata with val } c s₀) (fun _ => True)
        ⟨s₀.reset, .all⟩ ⟨s, g⟩) : Midway hdata options s

section Midway

variable {rt : Runtime} {hdata : DataHyp rt.toPlatform} {options : CacheOptions} {s t : State}
  {key : BlockKey}

theorem Midway.inv (h : Midway hdata options s) :
    ∃ (sc : Scenario rt.toPlatform) (g : Ghost), sc.D ∧ Inv sc ⟨s, g⟩ := by
  cases h with
  | mk c _ _ _ hsound hsteps => exact ⟨_, _, trivial, (hsound.given c).runs hsteps⟩

/-- A run comes through the states between its calls. -/
theorem Run.midway (hdata : DataHyp rt.toPlatform) {history : List Record}
    (hrun : Run rt options history s)
    (hsmall : ∀ record ∈ history, record.call.Bounded 2147483648) :
    Midway hdata options s.reset := by
  obtain ⟨val, hsound⟩ := (hrun.runOf _ hsmall).sound_bytes hdata fun _ _ _ h =>
    Call.stored hdata.toGeometry h
  exact .mk (.get [] none) hrun hsmall trivial hsound .refl

/-- What is a run of steps leads from such states to such states. -/
theorem Midway.ran {α : Type} {m : Prog State α} {a : α} (h : Midway hdata options s)
    (hm : ∀ (sc : Scenario rt.toPlatform) (g : Ghost), Inv sc ⟨s, g⟩ → ∃ P g₁,
      Runs sc P ⟨s, g⟩ ⟨s, g₁⟩ ∧ Spec False m (fun _ t => ∃ g₂, Runs sc P ⟨s, g₁⟩ ⟨t, g₂⟩) s)
    (hrun : m s = some (a, t)) : Midway hdata options t := by
  cases h with
  | mk c hinit hsmall hsmall' hsound hsteps =>
      obtain ⟨P, g₁, hfirst, hspec⟩ := hm _ _ ((hsound.given c).runs hsteps)
      obtain ⟨g₂, hlast⟩ := hspec.outcome hrun
      have hboth := (hfirst.trans hlast).mono fun _ _ => trivial
      exact .mk c hinit hsmall hsmall' hsound (hsteps.trans hboth)

/-- The keys that an allocation takes from the eviction policy. -/
theorem Midway.evictFor (h : Midway hdata options s) {size : Nat} {keys : List BlockKey}
    (hrun : MemCache.evictFor rt.toPlatform key size s = some (keys, t)) :
    Midway hdata options t ∧ ∀ k ∈ keys, ¬ t.MemBusy rt.toPlatform k := by
  constructor
  · apply h.ran _ hrun
    intro sc g hinv
    have hstart : Ran sc (fun _ => True) s g s g := .refl trivial
    refine ⟨fun _ => True, g, .refl, ?_⟩
    apply (memEvictFor_spec hstart hinv key size).mono
    intro keys u hu
    exact ⟨_, hu.1.runs⟩
  · obtain ⟨sc, g, _, hinv⟩ := h.inv
    have hstart : Ran sc (fun _ => True) s g s g := .refl trivial
    exact ((memEvictFor_spec (T := False) hstart hinv key size).outcome hrun).2.2.1

theorem Midway.evict (h : Midway hdata options s) {size : Nat} {keys : List BlockKey}
    (hrun : MemCache.evict size s = some (keys, t)) :
    Midway hdata options t ∧ ∀ k ∈ keys, ¬ t.MemBusy rt.toPlatform k := by
  constructor
  · apply h.ran _ hrun
    intro sc g hinv
    have hstart : Ran sc (fun _ => True) s g s g := .refl trivial
    refine ⟨fun _ => True, g, .refl, ?_⟩
    apply (memEvict_spec hstart hinv size).mono
    intro keys u hu
    exact ⟨_, hu.1.runs⟩
  · obtain ⟨sc, g, _, hinv⟩ := h.inv
    have hstart : Ran sc (fun _ => True) s g s g := .refl trivial
    exact ((memEvict_spec (T := False) hstart hinv size).outcome hrun).2.2.1

/-- When the keys before it have been processed, the next key of a list finds such a state. -/
theorem Midway.processed (h : Midway hdata options s) {done : List BlockKey}
    (hfree : ∀ k ∈ done, ¬ s.MemBusy rt.toPlatform k)
    (hrun : processEvictedMemBlocks rt done s = some ((), t)) : Midway hdata options t := by
  apply h.ran _ hrun
  intro sc g hinv
  have howed : s.MemEvictable rt.toPlatform ({k | k ∈ done} ∪ g.memOwed) :=
    hinv.memEvictable.mono Set.subset_union_right
  have hsettle : Runs sc (Action.InEvict none) ⟨s, g⟩
      ⟨s, { g with memOwed := {k | k ∈ done} ∪ g.memOwed }⟩ :=
    Moves.single (a := .other) trivial (.settle _ howed hinv.diskEvictable hinv.nonEmpty)
  have hprivate : s.Private none := fun _ h => by cases h
  refine ⟨_, _, hsettle, ?_⟩
  apply ((processEvictedMemBlocks_spec done (hinv.runs hsettle) hprivate hfree).weaken
    False.elim).mono
  intro _ u hu
  exact ⟨_, hu.runs⟩

end Midway

/-! ## Nothing is lost -/

/-- A complete memory block that is dropped because it is clean and on disk, or flushed with
success, leaves memory for the disk, and what could be read of the item still can, with the same
bytes. A flush, with success or not, leaves the item in the index, with all its disk blocks. -/
theorem flush_keeps_readable {rt : Runtime} (hdata : DataHyp rt.toPlatform) {options : CacheOptions}
    {s : State} {key : BlockKey} {r : ItemRef} {b : BlockItem} {memBlock : MemBlockItem}
    (hmidway : Midway hdata options s) (hfind : s.find key.cacheId = some r)
    (hb : s.HasBlock r key.blockIndex b) (hmem : b.memBlockItem = some memBlock)
    (hcomplete : Complete rt.toPlatform s r key.blockIndex b) :
    ((memBlock.state ≠ .dirty ∧ b.diskBlockItem ≠ none) ∨
        Flushes rt r key memBlock (askAdmission rt.toPlatform key r memBlock) s →
      ∀ t, processEvictedMemBlocks rt [key] s = some ((), t) → t.find key.cacheId = some r ∧
        (∃ id, t.HasBlock r key.blockIndex { memBlockItem := none, diskBlockItem := some id }) ∧
        CacheItem.KeepsDisk (s.items r) (t.items r) ∧
        ∀ o n bytes, s.readable rt.toPlatform r o n = some bytes →
          t.readable rt.toPlatform r o n = some bytes) ∧
    ∀ n u st v, askAdmission rt.toPlatform key r memBlock s = some (n, u) →
      flushAdmission rt n u (u.items r) key = .flush →
      flushBlockSegments rt.toPlatform r key memBlock.listSegments u = some (st, v) →
        v.find key.cacheId = some r ∧ CacheItem.KeepsDisk (s.items r) (v.items r) := by
  obtain ⟨sc, g, hD, hinv⟩ := hmidway.inv
  have hlive := hinv.wf.indexed_live hfind
  constructor
  · intro hway t hrun
    have hspec : Spec sc.T (processEvictedMemBlocks rt [key]) (fun _ t =>
        Ran sc (Action.InEvict none) s g t g ∧ MovedToDisk s key r t) s := by
      unfold processEvictedMemBlocks processEvictedMemBlock
      simp only [forEach, spec_bind, spec_read, hfind]
      apply (processEvictedMemItem_moves hinv hD hfind hb hmem hcomplete hway).mono
      intro _ u hu
      rw [spec_pure]
      exact hu
    obtain ⟨ht, hmoved, hfind'⟩ := hspec.outcome hrun
    have hinvt := ht.inv hinv
    have hlivet := hinvt.wf.indexed_live hfind'
    have hreadable := @readable_of_moved rt.toPlatform s t r (sc.val r) _
      (sc.data hD).toGeometry (hinv.content hD r hlive) (hinvt.content hD r hlivet)
      (hinv.wf.length r hlive) (hinvt.wf.length r hlivet)
      (fun i b block hb hmem x hx => ht.static.segment x
        (hinv.wf.segment_lt x (hinv.wf.mem_alive hlive hb hmem x hx))) _ hmoved
    refine ⟨hfind', ?_, hmoved.keepsDisk, fun _ _ _ => hreadable⟩
    obtain ⟨id, _, heq⟩ := hmoved
    refine ⟨id, ?_⟩
    have hblock : ((s.items r).updateBlock key.blockIndex fun _ => ⟨none, some id⟩).blocks[
        key.blockIndex]? = some ⟨none, some id⟩ :=
      State.updateBlock_getElem?.mpr ⟨b, hb, (if_pos rfl).symm⟩
    rwa [← heq] at hblock
  · -- what is stored of the object does not matter here
    intro n u st v hask hadmission hflush
    obtain ⟨hinvu, hueq, hheld, hspared⟩ := (askAdmission_spec hinv hfind hb hmem).outcome hask
    have hbare : Inv (Scenario.bare rt.toPlatform) ⟨u, g⟩ := by
      obtain hwf := hinvu.wf
      exact ⟨hwf, False.elim, hinvu.memEvictable, hinvu.diskEvictable, hinvu.nonEmpty,
        False.elim, Nat.zero_le _⟩
    have hitem : u.items r = s.items r := by rw [hueq]
    have hbu : u.HasBlock r key.blockIndex b := by
      rw [hueq]
      exact hb
    have hliveu : r ∈ u.liveItems := hinvu.wf.local_alive hheld
    have halive : ∀ ref ∈ memBlock.listSegments, ref ∈ u.liveSegments := fun ref href =>
      hinvu.wf.mem_alive hliveu hbu hmem ref
        ((mem_listSegments memBlock.slices memBlock.state ref).mp href)
    have hnone : u.Private none := fun _ h => by cases h
    obtain ⟨_, _, hfindv, hkeeps, _⟩ := (flushBlockSegments_spec hbare hnone hspared hheld
      ((flushAdmission_spec rt _ u _ key).1 hadmission) hbu (by simp [hmem]) halive
      False.elim False.elim).outcome hflush
    exact ⟨hfindv.trans hspared.find, hitem ▸ hkeeps⟩

section Examples

variable {rt : Runtime} {s : State} {r : ItemRef} {key : BlockKey} {b : BlockItem}
  {memBlock : MemBlockItem}

theorem Flushes.of_any (h : ((askAdmission rt.toPlatform key r memBlock s).any fun asked =>
    decide (flushAdmission rt asked.1 asked.2 (asked.2.items r) key = .flush) &&
      (flushBlockSegments rt.toPlatform r key memBlock.listSegments asked.2).any
        fun flushed => flushed.1.ok) = true) :
    Flushes rt r key memBlock (askAdmission rt.toPlatform key r memBlock) s := by
  obtain ⟨⟨n, u⟩, hask, hflush⟩ := (Option.any_eq_true _ _).mp h
  rw [Bool.and_eq_true] at hflush
  obtain ⟨⟨st, v⟩, hwrite, hok⟩ := (Option.any_eq_true _ _).mp hflush.2
  exact ⟨n, u, st, v, hask, of_decide_eq_true hflush.1, hwrite, hok⟩

/-- A block of two slices of two bytes, both in one segment. -/
theorem Complete.of_segment {pf : Platform} {i : Nat} {x : SegmentRef}
    (hslices : b.slices = [some x, some x]) (hslice : pf.flags.sliceSize = 2)
    (hsize : (s.items r).blockSize pf.flags i = 4)
    (hend : 4 ≤ (s.segments x).offset + (s.segments x).size) : Complete pf s r i b := by
  right
  intro k hk
  rw [hsize, hslice] at hk
  refine ⟨x, ?_, Or.inl (hsize ▸ hend)⟩
  rw [hslices]
  rcases (by omega : k = 0 ∨ k = 1) with rfl | rfl
  · rfl
  · rfl

end Examples

/-- A dirty block of two slices, flushed. -/
theorem flush_keeps_readable_small : ∃ s t,
    @Midway (.simple .small .reliable) (dataHyp_reliable geometry_small (.inl rfl)) (.oneDir 12 16)
        s ∧
      processEvictedMemBlocks (.simple .small .reliable) [⟨1, 0⟩] s = some ((), t) ∧
      (∃ id, t.HasBlock 0 0 { memBlockItem := none, diskBlockItem := some id }) ∧
      t.readable (.simple .small .reliable) 0 1 3 = some [2, 3, 4] := by
  obtain ⟨history, s, hrun, hp⟩ := Run.of_calls (.simple .small .reliable) (.oneDir 12 16)
    [.set [1] [1, 2, 3, 4] none, .read [1] 1 18446744073709551615 none]
    (fun history s => decide ((∀ record ∈ history, record.call.Bounded 2147483648) ∧
      s.find 1 = some 0 ∧ (s.items 0).blockSize .small 0 = 4 ∧
      4 ≤ (s.segments 0).offset + (s.segments 0).size ∧
      s.reset.readable (.simple .small .reliable) 0 1 3 = some [2, 3, 4] ∧
      (processEvictedMemBlocks (.simple .small .reliable) [⟨1, 0⟩] s.reset).isSome = true ∧
      ((s.items 0).blocks[0]?.bind BlockItem.memBlockItem).any (fun memBlock =>
        memBlock.slices == [some 0, some 0] &&
        (askAdmission (.simple .small .reliable) ⟨1, 0⟩ 0 memBlock s.reset).any fun asked =>
          decide (flushAdmission (.simple .small .reliable) asked.1 asked.2 (asked.2.items 0)
            ⟨1, 0⟩ = .flush) &&
          (flushBlockSegments (.simple .small .reliable) 0 ⟨1, 0⟩ memBlock.listSegments
            asked.2).any fun flushed => flushed.1.ok) = true))
    (by decide +kernel)
  obtain ⟨hsmall, hfind, hsize, hend, hread, hdone, hblock⟩ := of_decide_eq_true hp
  obtain ⟨memBlock, hmem, hblock⟩ := (Option.any_eq_true _ _).mp hblock
  obtain ⟨b, hb, hmem⟩ := Option.bind_eq_some_iff.mp hmem
  rw [Bool.and_eq_true] at hblock
  obtain ⟨⟨_, t⟩, hdone⟩ := Option.isSome_iff_exists.mp hdone
  have hmidway := hrun.midway (dataHyp_reliable geometry_small (.inl rfl)) hsmall
  have hslices : b.slices = [some 0, some 0] := by
    unfold BlockItem.slices
    rw [hmem, Option.map_some, Option.getD_some, eq_of_beq hblock.1]
  have hcomplete : Complete (Platform.simple .small .reliable) s.reset 0 0 b :=
    .of_segment hslices rfl hsize hend
  obtain ⟨hflushed, _⟩ := @flush_keeps_readable (.simple .small .reliable)
    (dataHyp_reliable geometry_small (.inl rfl)) (.oneDir 12 16) s.reset ⟨1, 0⟩ 0 b memBlock hmidway
    hfind hb hmem hcomplete
  obtain ⟨_, hgone, _, hkeeps⟩ := hflushed (Or.inr (.of_any hblock.2)) t hdone
  exact ⟨s.reset, t, hmidway, hdone, hgone, hkeeps 1 3 [2, 3, 4] hread⟩

/-- A flush whose write is padded beyond its block loses the next block, here one of the same
object: its second block goes to disk in front of its first. -/
theorem flush_loses : ∃ history s u t b memBlock,
    Run (.simple .padded .reliable) (.oneDir 20 16) history s ∧
      (∀ record ∈ history, record.call.Bounded 2147483648) ∧
      MemCache.evictFor (.simple .padded .reliable) ⟨5, 0⟩ 3 s.reset = some ([⟨2, 1⟩], u) ∧
      u.find 2 = some 1 ∧ u.HasBlock 1 1 b ∧ b.memBlockItem = some memBlock ∧
      Complete (Platform.simple .padded .reliable) u 1 1 b ∧
      Flushes (.simple .padded .reliable) 1 ⟨2, 1⟩ memBlock
        (askAdmission (.simple .padded .reliable) ⟨2, 1⟩ 1 memBlock) u ∧
      processEvictedMemBlocks (.simple .padded .reliable) [⟨2, 1⟩] u = some ((), t) ∧
      u.readable (.simple .padded .reliable) 1 0 4 = some [5, 6, 7, 8] ∧
      t.readable (.simple .padded .reliable) 1 0 4 = none := by
  obtain ⟨history, s, hrun, hp⟩ := Run.of_calls (.simple .padded .reliable) (.oneDir 20 16)
    [.set [1] [1, 2, 3, 4] (some { mode := .writeThrough }),
      .set [2] [5, 6, 7, 8, 9, 10, 11, 12] none, .set [3] [1] none, .remove [1]]
    (fun history s => decide ((∀ record ∈ history, record.call.Bounded 2147483648) ∧
      (MemCache.evictFor (.simple .padded .reliable) ⟨5, 0⟩ 3 s.reset).any (fun evicted =>
        evicted.1 == [⟨2, 1⟩] && decide (evicted.2.find 2 = some 1 ∧
          (evicted.2.items 1).blockSize .padded 1 = 4 ∧
          4 ≤ (evicted.2.segments 1).offset + (evicted.2.segments 1).size ∧
          evicted.2.readable (.simple .padded .reliable) 1 0 4 = some [5, 6, 7, 8]) &&
        (processEvictedMemBlocks (.simple .padded .reliable) [⟨2, 1⟩] evicted.2).any (fun done =>
          decide (done.2.readable (.simple .padded .reliable) 1 0 4 = none)) &&
        ((evicted.2.items 1).blocks[1]?.bind BlockItem.memBlockItem).any fun memBlock =>
          memBlock.slices == [some 1, some 1] &&
          (askAdmission (.simple .padded .reliable) ⟨2, 1⟩ 1 memBlock evicted.2).any fun asked =>
            decide (flushAdmission (.simple .padded .reliable) asked.1 asked.2 (asked.2.items 1)
              ⟨2, 1⟩ = .flush) &&
            (flushBlockSegments (.simple .padded .reliable) 1 ⟨2, 1⟩ memBlock.listSegments
              asked.2).any fun flushed => flushed.1.ok) = true))
    (by decide +kernel)
  obtain ⟨hsmall, hevict⟩ := of_decide_eq_true hp
  obtain ⟨⟨keys, u⟩, hevict, hu⟩ := (Option.any_eq_true _ _).mp hevict
  simp only [Bool.and_eq_true] at hu
  obtain ⟨⟨⟨hkeys, hstate⟩, hdone⟩, hblock⟩ := hu
  obtain ⟨hfind, hsize, hend, hread⟩ := of_decide_eq_true hstate
  obtain ⟨⟨_, t⟩, hdone, hlost⟩ := (Option.any_eq_true _ _).mp hdone
  obtain ⟨memBlock, hmem, hblock⟩ := (Option.any_eq_true _ _).mp hblock
  obtain ⟨b, hb, hmem⟩ := Option.bind_eq_some_iff.mp hmem
  rw [Bool.and_eq_true] at hblock
  have hslices : b.slices = [some 1, some 1] := by
    unfold BlockItem.slices
    rw [hmem, Option.map_some, Option.getD_some, eq_of_beq hblock.1]
  rw [eq_of_beq hkeys] at hevict
  exact ⟨history, s, u, t, b, memBlock, hrun, hsmall, hevict, hfind, hb, hmem,
    .of_segment hslices rfl hsize hend, .of_any hblock.2, hdone, hread, of_decide_eq_true hlost⟩

end StarCache
