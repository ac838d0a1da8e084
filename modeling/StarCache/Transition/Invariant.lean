import StarCache.Transition.Step

/-!
# The invariant of the transition system

Ownership, content and the three obligations are kept by every step.
-/

namespace StarCache

open Prog MachineInt

variable {pf : Platform} {s t : State}

/-! ## Replacing an item -/

namespace State

theorem hasBlock_withItem {r r' : ItemRef} {item : CacheItem} {i : Nat} {b : BlockItem} :
    (s.withItem r item).HasBlock r' i b ↔
      if r' = r then item.blocks[i]? = some b else s.HasBlock r' i b := by
  unfold HasBlock withItem
  dsimp only
  rw [Function.update_apply]
  split <;> rfl

theorem updateBlock_getElem? {r : ItemRef} {i j : Nat} {f : BlockItem → BlockItem}
    {b : BlockItem} :
    ((s.items r).updateBlock i f).blocks[j]? = some b ↔
      ∃ b₀, s.HasBlock r j b₀ ∧ b = if i = j then f b₀ else b₀ := by
  unfold CacheItem.updateBlock HasBlock
  dsimp only
  rw [List.getElem?_modify, Option.map_eq_map, Option.map_eq_some_iff]
  exact exists_congr fun b₀ => and_congr_right fun _ => eq_comm

/-- The blocks after one block has been rewritten. -/
theorem hasBlock_updateBlock {r r' : ItemRef} {i j : Nat} {f : BlockItem → BlockItem}
    {b : BlockItem} :
    (s.withItem r ((s.items r).updateBlock i f)).HasBlock r' j b ↔
      ∃ b₀, s.HasBlock r' j b₀ ∧ b = if r' = r ∧ i = j then f b₀ else b₀ := by
  rw [hasBlock_withItem]
  by_cases hr : r' = r
  · subst hr
    rw [if_pos rfl, updateBlock_getElem?]
    simp
  · rw [if_neg hr]
    simp [hr]

theorem clearDiskBlocks_getElem? {r : ItemRef} {j : Nat} {b : BlockItem} :
    (s.items r).clearDiskBlocks.blocks[j]? = some b ↔
      ∃ b₀, s.HasBlock r j b₀ ∧ b = { b₀ with diskBlockItem := none } := by
  unfold CacheItem.clearDiskBlocks HasBlock
  dsimp only
  rw [List.getElem?_map, Option.map_eq_some_iff]
  exact exists_congr fun b₀ => and_congr_right fun _ => eq_comm

theorem withItem_items (r r' : ItemRef) (item : CacheItem) :
    (s.withItem r item).items r' = if r' = r then item else s.items r' :=
  Function.update_apply ..

end State

theorem WF.ownerAt (h : WF pf s) {r : ItemRef} (hr : r ∈ s.liveItems) {i : Nat} {b : BlockItem}
    (hb : s.HasBlock r i b) {id : BlockId} (hid : b.diskBlockItem = some id) :
    s.OwnerAt id r i := by
  intro r' i' b' hr' hb' hid'
  exact h.owner r' hr' r hr i' i b' b hb' hb id hid' hid

theorem WF.disk_live (h : WF pf s) {r : ItemRef} (hr : r ∈ s.liveItems) {i : Nat} {b : BlockItem}
    (hb : s.HasBlock r i b) {id : BlockId} (hid : b.diskBlockItem = some id) :
    id ∈ s.liveBlocks :=
  h.block_held id (State.blockHeld_iff.mpr (Or.inl ⟨r, hr, i, b, hb, hid⟩))

/-- A disk block is there only when there are disks. -/
theorem WF.hasDiskLayer (h : WF pf s) {id : BlockId} (hid : id ∈ s.liveBlocks) :
    s.hasDiskLayer = true := by
  obtain ⟨dir, hdir, _⟩ := (h.diskSpace.allocated id).mpr hid
  have hlt := (List.getElem?_eq_some_iff.mp hdir).1
  rw [h.layer] at hlt
  unfold State.hasDiskLayer
  rw [decide_eq_true_eq]
  omega

theorem WF.mem_alive (h : WF pf s) {r : ItemRef} (hr : r ∈ s.liveItems) {i : Nat} {b : BlockItem}
    (hb : s.HasBlock r i b) {block : MemBlockItem} (hblock : b.memBlockItem = some block) :
    s.Alive (.memBlock block) := fun g hg =>
  h.segment_held g (State.segmentHeld_iff.mpr (Or.inl ⟨r, hr, i, b, block, hb, hblock, hg⟩))

/-- Whatever a local variable refers to is alive. -/
theorem WF.local_alive (h : WF pf s) {x : Local} (hx : x ∈ s.locals) : s.Alive x := by
  cases x with
  | item r => exact h.item_held r (State.itemHeld_iff.mpr (Or.inr hx))
  | segment g => exact h.segment_held g (State.segmentHeld_iff.mpr (Or.inr (Or.inl hx)))
  | memBlock block =>
      exact fun g hg => h.segment_held g (State.segmentHeld_iff.mpr (Or.inr (Or.inr ⟨_, hx, hg⟩)))
  | diskBlock id => exact h.block_held id (State.blockHeld_iff.mpr (Or.inr hx))

theorem WF.withItem (h : WF pf s) {r : ItemRef} {item : CacheItem}
    (hkey : item.cacheKey = (s.items r).cacheKey) (hsize : item.size = (s.items r).size)
    (hreleased : s.Indexed r → item.released = false)
    (hlength : item.blocks.length = (s.items r).blocks.length)
    (hmem : r ∈ s.liveItems → ∀ (i : Nat) (b : BlockItem) block, item.blocks[i]? = some b →
      b.memBlockItem = some block → s.Alive (.memBlock block))
    (hdisk : r ∈ s.liveItems → ∀ (i : Nat) (b : BlockItem) id, item.blocks[i]? = some b →
      b.diskBlockItem = some id → id ∈ s.liveBlocks ∧ s.OwnerAt id r i)
    (huniq : r ∈ s.liveItems → ∀ (i j : Nat) (b b' : BlockItem) id, item.blocks[i]? = some b →
      item.blocks[j]? = some b' → b.diskBlockItem = some id → b'.diskBlockItem = some id → i = j) :
    WF pf (s.withItem r item) := by
  have hcharge : (s.withItem r item).itemsCharge pf s.liveItems = s.itemsCharge pf s.liveItems := by
    unfold State.itemsCharge
    refine List.map_congr_left fun r' _ => ?_
    rw [State.withItem_items]
    split
    next heq => rw [hkey, hsize, heq]
    next => rfl
  exact { h with
    segment_held := by
      intro g hg
      rw [State.segmentHeld_iff] at hg
      rcases hg with ⟨r', hr', i, b, block, hb, hblock, hmem'⟩ | hg
      · rw [State.hasBlock_withItem] at hb
        split at hb
        next heq =>
          subst heq
          exact hmem hr' i b block hb hblock g hmem'
        next => exact h.mem_alive hr' hb hblock g hmem'
      · exact h.segment_held g (State.segmentHeld_iff.mpr (Or.inr hg))
    block_held := by
      intro id hid
      rw [State.blockHeld_iff] at hid
      rcases hid with ⟨r', hr', i, b, hb, hdisk'⟩ | hid
      · rw [State.hasBlock_withItem] at hb
        split at hb
        next heq =>
          subst heq
          exact (hdisk hr' i b id hb hdisk').1
        next => exact h.disk_live hr' hb hdisk'
      · exact h.block_held id (State.blockHeld_iff.mpr (Or.inr hid))
    owner := by
      intro r₁ hr₁ r₂ hr₂ i₁ i₂ b₁ b₂ hb₁ hb₂ id hid₁ hid₂
      rw [State.hasBlock_withItem] at hb₁ hb₂
      split at hb₁
      next heq₁ =>
        subst heq₁
        obtain ⟨_, howner⟩ := hdisk hr₁ i₁ b₁ id hb₁ hid₁
        split at hb₂
        next heq₂ =>
          subst heq₂
          exact ⟨rfl, huniq hr₁ i₁ i₂ b₁ b₂ id hb₁ hb₂ hid₁ hid₂⟩
        next =>
          obtain ⟨hr, hi⟩ := howner r₂ i₂ b₂ hr₂ hb₂ hid₂
          exact ⟨hr.symm, hi.symm⟩
      next =>
        split at hb₂
        next heq₂ =>
          subst heq₂
          obtain ⟨_, howner⟩ := hdisk hr₂ i₂ b₂ id hb₂ hid₂
          exact howner r₁ i₁ b₁ hr₁ hb₁ hid₁
        next => exact h.owner r₁ hr₁ r₂ hr₂ i₁ i₂ b₁ b₂ hb₁ hb₂ id hid₁ hid₂
    memSpace := by
      have hmem' := h.memSpace
      rw [← hcharge] at hmem'
      exact hmem'
    home := by
      intro id r' hfind
      rw [State.withItem_items, apply_ite CacheItem.cacheKey]
      split
      next heq =>
        rw [hkey, ← heq]
        exact h.home id r' hfind
      next => exact h.home id r' hfind
    active := by
      intro id r' hfind
      rw [State.withItem_items]
      split
      next heq => exact hreleased ⟨id, heq ▸ hfind⟩
      next => exact h.active id r' hfind
    length := by
      intro r' hr'
      rw [State.withItem_items]
      split
      next heq =>
        subst heq
        rw [hlength, h.length r' hr']
        unfold CacheItem.blockCount
        rw [hsize]
      next => exact h.length r' hr' }

/-- Rewriting one block. -/
theorem WF.updateBlock (h : WF pf s) {r : ItemRef} {i : Nat} {f : BlockItem → BlockItem}
    (hmem : ∀ b block, s.HasBlock r i b → (f b).memBlockItem = some block →
      b.memBlockItem = some block ∨ s.Alive (.memBlock block))
    (hdisk : ∀ b id, s.HasBlock r i b → (f b).diskBlockItem = some id →
      b.diskBlockItem = some id ∨ id ∈ s.liveBlocks ∧ s.OwnerAt id r i) :
    WF pf (s.withItem r ((s.items r).updateBlock i f)) := by
  -- a disk block after the change, seen before it
  have hseen : r ∈ s.liveItems → ∀ j b id, ((s.items r).updateBlock i f).blocks[j]? = some b →
      b.diskBlockItem = some id → id ∈ s.liveBlocks ∧ s.OwnerAt id r j := by
    intro hr j b id hb hid
    obtain ⟨b₀, hb₀, rfl⟩ := State.updateBlock_getElem?.mp hb
    split at hid
    next heq =>
      subst heq
      rcases hdisk b₀ id hb₀ hid with hid₀ | hnew
      · exact ⟨h.disk_live hr hb₀ hid₀, h.ownerAt hr hb₀ hid₀⟩
      · exact hnew
    next => exact ⟨h.disk_live hr hb₀ hid, h.ownerAt hr hb₀ hid⟩
  refine h.withItem rfl rfl (fun ⟨id, hfind⟩ => h.active id r hfind) (List.length_modify ..) ?_
    hseen ?_
  · intro hr j b block hb hblock
    obtain ⟨b₀, hb₀, rfl⟩ := State.updateBlock_getElem?.mp hb
    split at hblock
    next heq =>
      subst heq
      rcases hmem b₀ block hb₀ hblock with hblock₀ | hnew
      · exact h.mem_alive hr hb₀ hblock₀
      · exact hnew
    next => exact h.mem_alive hr hb₀ hblock
  · intro hr j k b b' id hb hb' hid hid'
    obtain ⟨_, hj⟩ := hseen hr j b id hb hid
    obtain ⟨_, hk⟩ := hseen hr k b' id hb' hid'
    obtain ⟨b₀, hb₀, rfl⟩ := State.updateBlock_getElem?.mp hb
    obtain ⟨b₁, hb₁, rfl⟩ := State.updateBlock_getElem?.mp hb'
    -- at most one of the two blocks is the rewritten one
    by_cases hij : i = j
    · by_cases hik : i = k
      · omega
      · rw [if_neg hik] at hid'
        exact ((hj r k b₁ hr hb₁ hid').2).symm
    · rw [if_neg hij] at hid
      exact (hk r j b₀ hr hb₀ hid).2

theorem WF.clearDisk (h : WF pf s) (r : ItemRef) :
    WF pf (s.withItem r (s.items r).clearDiskBlocks) := by
  refine h.withItem rfl rfl (fun ⟨id, hfind⟩ => h.active id r hfind) (List.length_map _) ?_ ?_ ?_
  · intro hr i b block hb hblock
    obtain ⟨b₀, hb₀, rfl⟩ := State.clearDiskBlocks_getElem?.mp hb
    exact h.mem_alive hr hb₀ hblock
  · intro hr i b id hb hid
    obtain ⟨b₀, hb₀, rfl⟩ := State.clearDiskBlocks_getElem?.mp hb
    cases hid
  · intro hr i j b b' id hb hb' hid hid'
    obtain ⟨b₀, hb₀, rfl⟩ := State.clearDiskBlocks_getElem?.mp hb
    cases hid

/-! ## Content -/

/-- Content depends on the item, on the segments in use and on the blocks it owns. -/
theorem ItemOk.frame {W : Nat → Nat → Prop} {value : IOBuf} {r : ItemRef} (h : ItemOk pf W value s r)
    (hitem : t.items r = s.items r)
    (hsegment : ∀ i b block, s.HasBlock r i b → b.memBlockItem = some block →
      ∀ g, some g ∈ block.slices → t.segments g = s.segments g)
    (hdisk : ∀ i b id, s.HasBlock r i b → b.diskBlockItem = some id →
      BlockOnDisk pf s (blockPart pf.flags value i) id →
        BlockOnDisk pf t (blockPart pf.flags value i) id) :
    ItemOk pf W value t r := by
  have hblock : ∀ i b, t.HasBlock r i b → s.HasBlock r i b := by
    intro i b hb
    unfold State.HasBlock at hb ⊢
    rwa [hitem] at hb
  refine ⟨by rw [hitem, h.size], h.pos, h.le, fun i b block hb hmem => ?_,
    fun i b id hb hid => hdisk i b id (hblock i b hb) hid (h.disk i b id (hblock i b hb) hid)⟩
  have hok := h.mem i b block (hblock i b hb) hmem
  have hseg := hsegment i b block (hblock i b hb) hmem
  refine ⟨⟨hok.slices.length, fun k g hg => ?_, fun k g hg hk => ?_⟩, hok.dirty⟩
  · rw [hseg g (List.mem_of_getElem? hg)]
    exact hok.slices.segment k g hg
  · rw [hseg g (List.mem_of_getElem? hg)]
    exact hok.slices.fills k g hg hk

theorem BlockOnDisk.of_eq {bytes : IOBuf} {id : BlockId} (h : BlockOnDisk pf s bytes id)
    (hfiles : t.files = s.files) (hchecksums : t.checksums = s.checksums) :
    BlockOnDisk pf t bytes id := by
  intro k hk
  have hslice := h k hk
  refine ⟨fun p hlo hhi hp => ?_, fun henabled => ?_⟩
  · rw [hfiles]
    exact hslice.content p hlo hhi hp
  · rw [hchecksums]
    exact hslice.checksum henabled

theorem ItemOk.of_eq {W : Nat → Nat → Prop} {value : IOBuf} {r : ItemRef} (h : ItemOk pf W value s r)
    (hitem : t.items r = s.items r) (hsegments : t.segments = s.segments)
    (hfiles : t.files = s.files) (hchecksums : t.checksums = s.checksums) :
    ItemOk pf W value t r := by
  exact h.frame hitem (fun _ _ _ _ _ g _ => by rw [hsegments])
    fun _ _ _ _ _ hon => hon.of_eq hfiles hchecksums

/-- Rewriting one block of an item. -/
theorem ItemOk.updateBlock {W : Nat → Nat → Prop} {value : IOBuf} {r r' : ItemRef}
    (h : ItemOk pf W value s r') {i : Nat}
    {f : BlockItem → BlockItem}
    (hmem : ∀ b block, r' = r → s.HasBlock r i b → (f b).memBlockItem = some block →
      b.memBlockItem = some block ∨
        MemOk pf.flags (blockPart pf.flags value i) (W i) s.segments block)
    (hdisk : ∀ b id, r' = r → s.HasBlock r i b → (f b).diskBlockItem = some id →
      b.diskBlockItem = some id ∨ BlockOnDisk pf s (blockPart pf.flags value i) id) :
    ItemOk pf W value (s.withItem r ((s.items r).updateBlock i f)) r' := by
  refine ⟨?_, h.pos, h.le, ?_, ?_⟩
  · rw [State.withItem_items]
    split
    next heq =>
      subst heq
      exact h.size
    next => exact h.size
  · intro j b block hb hblock
    obtain ⟨b₀, hb₀, rfl⟩ := State.hasBlock_updateBlock.mp hb
    split at hblock
    next heq =>
      obtain ⟨rfl, rfl⟩ := heq
      rcases hmem b₀ block rfl hb₀ hblock with hold | hnew
      · exact h.mem i b₀ block hb₀ hold
      · exact hnew
    next => exact h.mem j b₀ block hb₀ hblock
  · intro j b id hb hid
    obtain ⟨b₀, hb₀, rfl⟩ := State.hasBlock_updateBlock.mp hb
    suffices hon : BlockOnDisk pf s (blockPart pf.flags value j) id from hon.of_eq rfl rfl
    split at hid
    next heq =>
      obtain ⟨rfl, rfl⟩ := heq
      rcases hdisk b₀ id rfl hb₀ hid with hold | hnew
      · exact h.disk i b₀ id hb₀ hold
      · exact hnew
    next => exact h.disk j b₀ id hb₀ hid

/-! ## Obligations -/

/-- When fewer items are indexed, and these are as before. -/
structure Fewer (s t : State) : Prop where
  find : ∀ id r, t.find id = some r → s.find id = some r ∧ t.items r = s.items r
  layer : t.hasDiskLayer = s.hasDiskLayer
  trace : ∀ e ∈ s.trace, e ∈ t.trace

theorem State.MemEvictable.fewer {owed owed' : Set BlockKey} (h : s.MemEvictable pf owed)
    (hfewer : Fewer s t) (howed : owed ⊆ owed')
    (htracked : ∀ key r, t.find key.cacheId = some r → s.MemTracked pf key →
      t.MemTracked pf key ∨ key ∈ owed') : t.MemEvictable pf owed' := by
  intro id r i b hfind hb hmem hlocked
  obtain ⟨hfind', hitem⟩ := hfewer.find id r hfind
  unfold State.HasBlock at hb
  unfold State.Locked at hlocked
  rw [hitem] at hb hlocked
  rw [hfewer.layer] at hlocked
  rcases h id r i b hfind' hb hmem hlocked with hin | hin
  · exact htracked _ r hfind hin
  · exact Or.inr (howed hin)

theorem State.DiskEvictable.fewer {owed owed' : Set CacheId} (h : s.DiskEvictable pf owed)
    (hfewer : Fewer s t) (howed : owed ⊆ owed')
    (htracked : ∀ id r, t.find id = some r → s.DiskTracked pf id →
      t.DiskTracked pf id ∨ id ∈ owed') : t.DiskEvictable pf owed' := by
  intro id r i b hfind hb hdisk hpinned
  obtain ⟨hfind', hitem⟩ := hfewer.find id r hfind
  unfold State.HasBlock at hb
  rw [hitem] at hb hpinned
  rcases h id r i b hfind' hb hdisk hpinned with hin | hin | ⟨id', lost, hmem, hin⟩
  · exact (htracked id r hfind hin).imp_right Or.inl
  · exact Or.inr (Or.inl (howed hin))
  · exact Or.inr (Or.inr ⟨id', lost, hfewer.trace _ hmem, hin⟩)

theorem State.NonEmpty.fewer {hollow hollow' : Set ItemRef} (h : s.NonEmpty hollow)
    (hfewer : Fewer s t) (hsub : hollow ⊆ hollow') : t.NonEmpty hollow' := by
  intro id r hfind
  obtain ⟨hfind', hitem⟩ := hfewer.find id r hfind
  rcases h id r hfind' with ⟨i, b, hb, hne⟩ | hin | ⟨key, item, hmem, hdrained⟩
  · refine Or.inl ⟨i, b, ?_, hne⟩
    unfold State.HasBlock at hb ⊢
    rwa [hitem]
  · exact Or.inr (Or.inl (hsub hin))
  · exact Or.inr (Or.inr ⟨key, item, hfewer.trace _ hmem, hdrained⟩)

section UpdateBlock

variable {r : ItemRef} {i : Nat} {f : BlockItem → BlockItem}

theorem State.locked_updateBlock {r' : ItemRef} :
    (s.withItem r ((s.items r).updateBlock i f)).Locked r' ↔ s.Locked r' := by
  unfold State.Locked
  rw [State.withItem_items]
  split
  next heq =>
    subst heq
    rfl
  next => rfl

theorem State.MemEvictable.updateBlock {owed owed' : Set BlockKey} (h : s.MemEvictable pf owed)
    (howed : owed ⊆ owed')
    (hf : ∀ b, s.HasBlock r i b → (f b).memBlockItem ≠ none → b.memBlockItem ≠ none ∨
      ∀ id, s.find id = some r → ⟨id, i⟩ ∈ owed') :
    (s.withItem r ((s.items r).updateBlock i f)).MemEvictable pf owed' := by
  intro id r' j b hfind hb hmem hlocked
  obtain ⟨b₀, hb₀, rfl⟩ := State.hasBlock_updateBlock.mp hb
  rw [State.locked_updateBlock] at hlocked
  have hold : b₀.memBlockItem ≠ none → s.MemTracked pf ⟨id, j⟩ ∨ ⟨id, j⟩ ∈ owed' := fun hne =>
    (h id r' j b₀ hfind hb₀ hne hlocked).imp_right (howed ·)
  split at hmem
  next heq =>
    obtain ⟨rfl, rfl⟩ := heq
    rcases hf b₀ hb₀ hmem with hne | hin
    · exact hold hne
    · exact Or.inr (hin id hfind)
  next => exact hold hmem

theorem State.DiskEvictable.updateBlock {owed owed' : Set CacheId} (h : s.DiskEvictable pf owed)
    (howed : owed ⊆ owed')
    (hf : ∀ b, s.HasBlock r i b → (f b).diskBlockItem ≠ none → b.diskBlockItem ≠ none ∨
      ∀ id, s.find id = some r → id ∈ owed') :
    (s.withItem r ((s.items r).updateBlock i f)).DiskEvictable pf owed' := by
  intro id r' j b hfind hb hdisk hpinned
  obtain ⟨b₀, hb₀, rfl⟩ := State.hasBlock_updateBlock.mp hb
  have hpinned' : (s.items r').pinned = false := by
    rw [State.withItem_items] at hpinned
    split at hpinned
    next heq =>
      subst heq
      exact hpinned
    next => exact hpinned
  have hold : b₀.diskBlockItem ≠ none → s.DiskTracked pf id ∨ id ∈ owed' ∨
      ∃ id' lost, .diskMissing id' lost ∈ s.trace ∧ id ∈ lost := fun hne =>
    (h id r' j b₀ hfind hb₀ hne hpinned').imp_right (Or.imp_left (howed ·))
  split at hdisk
  next heq =>
    obtain ⟨rfl, rfl⟩ := heq
    rcases hf b₀ hb₀ hdisk with hne | hin
    · exact hold hne
    · exact Or.inr (Or.inl (hin id hfind))
  next => exact hold hdisk

theorem State.NonEmpty.updateBlock {hollow hollow' : Set ItemRef} (h : s.NonEmpty hollow)
    (hsub : hollow ⊆ hollow')
    (hf : ∀ b, s.HasBlock r i b → (f b).isEmpty = true → b.isEmpty = true ∨ r ∈ hollow') :
    (s.withItem r ((s.items r).updateBlock i f)).NonEmpty hollow' := by
  intro id r' hfind
  rcases h id r' hfind with ⟨j, b, hb, hne⟩ | hin | hevent
  · by_cases hij : r' = r ∧ i = j
    · obtain ⟨rfl, rfl⟩ := hij
      by_cases hfb : (f b).isEmpty = true
      · refine Or.inr (Or.inl ((hf b hb hfb).resolve_left ?_))
        rw [hne]
        exact Bool.false_ne_true
      · refine Or.inl ⟨i, f b, State.hasBlock_updateBlock.mpr ⟨b, hb, ?_⟩, by simpa using hfb⟩
        rw [if_pos ⟨rfl, rfl⟩]
    · exact Or.inl ⟨j, b, State.hasBlock_updateBlock.mpr ⟨b, hb, by rw [if_neg hij]⟩, hne⟩
  · exact Or.inr (Or.inl (hsub hin))
  · exact Or.inr (Or.inr hevent)

end UpdateBlock

/-! ## Ownership -/

namespace State

theorem find_insert (id id' : CacheId) (r : ItemRef) :
    ({ s with accessIndex := s.accessIndex.insert id r } : State).find id' =
      if id' = id then some r else s.find id' := by
  unfold find
  dsimp only
  split
  next heq => rw [heq, AList.lookup_insert]
  next hne => rw [AList.lookup_insert_ne hne]

theorem find_erase (id id' : CacheId) :
    (s.accessIndex.erase id).lookup id' = if id' = id then none else s.find id' := by
  unfold find
  split
  next heq => rw [heq, AList.lookup_erase]
  next hne => rw [AList.lookup_erase_ne hne]

end State

theorem WF.indexed_lt (h : WF pf s) {id : CacheId} {r : ItemRef} (hfind : s.find id = some r) :
    r < s.itemCount := h.item_lt r (h.indexed_live hfind)

theorem WF.newItem (h : WF pf s) {cacheKey : CacheKey} {size expireTime : Nat}
    {memSpace : MemSpaceManager}
    (hmem : ∀ total, s.memSpace.Accounts total →
      memSpace.Accounts (total + itemCharge pf cacheKey size)) :
    WF pf { s with
      memSpace
      items := Function.update s.items s.itemCount (.new pf.flags cacheKey size expireTime)
      itemCount := s.itemCount + 1
      liveItems := s.itemCount :: s.liveItems } := by
  have hold : ∀ r ∈ s.liveItems, Function.update s.items s.itemCount
      (.new pf.flags cacheKey size expireTime) r = s.items r := fun r hr =>
    Function.update_of_ne (Nat.ne_of_lt (h.item_lt r hr)) ..
  have hfind : ∀ id r, s.find id = some r → Function.update s.items s.itemCount
      (.new pf.flags cacheKey size expireTime) r = s.items r := fun id r hr =>
    hold r (h.indexed_live hr)
  -- the new item has only empty blocks
  have hblock : ∀ r ∈ s.itemCount :: s.liveItems, ∀ i b,
      (Function.update s.items s.itemCount (.new pf.flags cacheKey size expireTime) r).blocks[i]? =
        some b → b = {} ∨ r ∈ s.liveItems ∧ s.HasBlock r i b := by
    intro r hr i b hb
    rcases List.mem_cons.mp hr with rfl | hr
    · rw [Function.update_self] at hb
      exact Or.inl (List.eq_of_mem_replicate (List.mem_of_getElem? hb))
    · rw [hold r hr] at hb
      exact Or.inr ⟨hr, hb⟩
  exact { h with
    item_lt := by
      intro r hr
      rcases List.mem_cons.mp hr with rfl | hr
      · exact Nat.lt_succ_self _
      · exact Nat.lt_succ_of_lt (h.item_lt r hr)
    item_nodup := List.nodup_cons.mpr
      ⟨fun hr => Nat.lt_irrefl _ (h.item_lt _ hr), h.item_nodup⟩
    item_held := fun r hr => List.mem_cons_of_mem _ (h.item_held r hr)
    segment_held := by
      intro g hg
      rcases State.segmentHeld_iff.mp hg with ⟨r, hr, i, b, block, hb, hmem, hslice⟩ | hlocal
      · rcases hblock r hr i b hb with rfl | ⟨hr, hb⟩
        · cases hmem
        · exact h.mem_alive hr hb hmem g hslice
      · exact h.segment_held g (State.segmentHeld_iff.mpr (Or.inr hlocal))
    block_held := by
      intro id hid
      rcases State.blockHeld_iff.mp hid with ⟨r, hr, i, b, hb, hdisk⟩ | hlocal
      · rcases hblock r hr i b hb with rfl | ⟨hr, hb⟩
        · cases hdisk
        · exact h.disk_live hr hb hdisk
      · exact h.block_held id (State.blockHeld_iff.mpr (Or.inr hlocal))
    owner := by
      intro r hr r' hr' i i' b b' hb hb' id hid hid'
      rcases hblock r hr i b hb with rfl | ⟨hr, hb⟩
      · cases hid
      · rcases hblock r' hr' i' b' hb' with rfl | ⟨hr', hb'⟩
        · cases hid'
        · exact h.owner r hr r' hr' i i' b b' hb hb' id hid hid'
    memSpace := by
      have hsum := hmem _ h.memSpace
      refine cast (congrArg memSpace.Accounts ?_) hsum
      have hitems : s.liveItems.map (fun r => itemCharge pf
          (Function.update s.items s.itemCount (.new pf.flags cacheKey size expireTime) r).cacheKey
          (Function.update s.items s.itemCount (.new pf.flags cacheKey size expireTime) r).size) =
          s.itemsCharge pf s.liveItems := List.map_congr_left fun r hr => by rw [hold r hr]
      show _ = (List.map _ (s.itemCount :: s.liveItems)).sum +
        (s.segmentsCharge pf s.liveSegments).sum
      rw [List.map_cons, List.sum_cons]
      dsimp only
      rw [Function.update_self, hitems]
      show _ = itemCharge pf cacheKey size + _ + _
      omega
    home := fun id r hr => by
      dsimp only
      rw [hfind id r hr]
      exact h.home id r hr
    active := fun id r hr => by
      dsimp only
      rw [hfind id r hr]
      exact h.active id r hr
    length := by
      intro r hr
      dsimp only
      rcases List.mem_cons.mp hr with rfl | hr
      · rw [Function.update_self]
        exact List.length_replicate ..
      · rw [hold r hr]
        exact h.length r hr }

theorem WF.newSegment (h : WF pf s) {seg : BlockSegment} {memSpace : MemSpaceManager}
    (hmem : ∀ total, s.memSpace.Accounts total →
      memSpace.Accounts (total + segmentCharge pf seg.buf)) :
    WF pf { s with
      memSpace
      segments := Function.update s.segments s.segmentCount seg
      segmentCount := s.segmentCount + 1
      liveSegments := s.segmentCount :: s.liveSegments } := by
  exact { h with
    segment_lt := by
      intro g hg
      rcases List.mem_cons.mp hg with rfl | hg
      · exact Nat.lt_succ_self _
      · exact Nat.lt_succ_of_lt (h.segment_lt g hg)
    segment_nodup := List.nodup_cons.mpr
      ⟨fun hg => Nat.lt_irrefl _ (h.segment_lt _ hg), h.segment_nodup⟩
    segment_held := fun g hg => List.mem_cons_of_mem _ (h.segment_held g hg)
    memSpace := by
      have hsum := hmem _ h.memSpace
      refine cast (congrArg memSpace.Accounts ?_) hsum
      have hold : s.liveSegments.map (fun g => segmentCharge pf
          (Function.update s.segments s.segmentCount seg g).buf) =
          s.liveSegments.map fun g => segmentCharge pf (s.segments g).buf :=
        List.map_congr_left fun g hg => by
          rw [Function.update_of_ne (Nat.ne_of_lt (h.segment_lt g hg))]
      unfold State.segmentsCharge
      rw [List.map_cons, List.sum_cons]
      dsimp only
      rw [Function.update_self, hold]
      show (List.sum (s.itemsCharge pf s.liveItems) + _) + _ =
        List.sum (s.itemsCharge pf s.liveItems) + _
      omega }

theorem WF.hold (h : WF pf s) {x : Local} (halive : s.Alive x) :
    WF pf { s with locals := x :: s.locals } := by
  exact { h with
    item_held := by
      intro r hr
      rcases State.itemHeld_iff.mp hr with hindex | hlocal
      · exact h.item_held r (State.itemHeld_iff.mpr (Or.inl hindex))
      · rcases List.mem_cons.mp hlocal with rfl | hlocal
        · exact halive
        · exact h.local_alive hlocal
    segment_held := by
      intro g hg
      rcases State.segmentHeld_iff.mp hg with hitem | hlocal | ⟨block, hlocal, hslice⟩
      · exact h.segment_held g (State.segmentHeld_iff.mpr (Or.inl hitem))
      · rcases List.mem_cons.mp hlocal with rfl | hlocal
        · exact halive
        · exact h.local_alive hlocal
      · rcases List.mem_cons.mp hlocal with rfl | hlocal
        · exact halive g hslice
        · exact h.local_alive hlocal g hslice
    block_held := by
      intro id hid
      rcases State.blockHeld_iff.mp hid with hitem | hlocal
      · exact h.block_held id (State.blockHeld_iff.mpr (Or.inl hitem))
      · rcases List.mem_cons.mp hlocal with rfl | hlocal
        · exact halive
        · exact h.local_alive hlocal }

theorem WF.leave (h : WF pf s) {locals : List Local} (hsub : ∀ x ∈ locals, x ∈ s.locals) :
    WF pf { s with locals } := by
  exact { h with
    item_held := fun r hr => h.item_held r
      (State.itemHeld_iff.mpr ((State.itemHeld_iff.mp hr).imp_right (hsub _)))
    segment_held := fun g hg => h.segment_held g
      (State.segmentHeld_iff.mpr ((State.segmentHeld_iff.mp hg).imp_right
        (Or.imp (hsub _) fun ⟨block, hmem, hg⟩ => ⟨block, hsub _ hmem, hg⟩)))
    block_held := fun id hid => h.block_held id
      (State.blockHeld_iff.mpr ((State.blockHeld_iff.mp hid).imp_right (hsub _))) }

/-- Unlinking an item, released or not. -/
theorem WF.unlink (h : WF pf s) {id : CacheId} {r : ItemRef} {released : Bool}
    (hfound : s.find id = some r) :
    WF pf { s.withItem r { s.items r with released } with
      accessIndex := s.accessIndex.erase id } := by
  -- the item is not indexed any more
  have hfind : ∀ id' r', (s.accessIndex.erase id).lookup id' = some r' →
      s.find id' = some r' ∧ r' ≠ r := by
    intro id' r' hfind
    rw [State.find_erase] at hfind
    split at hfind
    next => cases hfind
    next hne => exact ⟨hfind, fun heq => hne (h.find_inj (heq ▸ hfind) hfound)⟩
  have hitem : ∀ r', r' ≠ r → (s.withItem r { s.items r with released }).items r' = s.items r' :=
    fun r' hne => by rw [State.withItem_items, if_neg hne]
  have hcharge : (s.withItem r { s.items r with released }).itemsCharge pf s.liveItems =
      s.itemsCharge pf s.liveItems := by
    unfold State.itemsCharge
    refine List.map_congr_left fun r' _ => ?_
    rw [State.withItem_items]
    split
    next heq => rw [heq]
    next => rfl
  have hblock : ∀ r' i b, (s.withItem r { s.items r with released }).HasBlock r' i b →
      s.HasBlock r' i b := by
    intro r' i b hb
    rw [State.hasBlock_withItem] at hb
    split at hb
    next heq => exact heq ▸ hb
    next => exact hb
  exact { h with
    item_held := by
      intro r' hr'
      rcases State.itemHeld_iff.mp hr' with ⟨id', hindex⟩ | hlocal
      · exact h.indexed_live (hfind id' r' hindex).1
      · exact h.local_alive hlocal
    segment_held := fun g hg => h.segment_held g (State.segmentHeld_iff.mpr
      ((State.segmentHeld_iff.mp hg).imp_left fun ⟨r', hr', i, b, block, hb, hrest⟩ =>
        ⟨r', hr', i, b, block, hblock r' i b hb, hrest⟩))
    block_held := fun id hid => h.block_held id (State.blockHeld_iff.mpr
      ((State.blockHeld_iff.mp hid).imp_left fun ⟨r', hr', i, b, hb, hrest⟩ =>
        ⟨r', hr', i, b, hblock r' i b hb, hrest⟩))
    owner := fun r₁ hr₁ r₂ hr₂ i₁ i₂ b₁ b₂ hb₁ hb₂ => h.owner r₁ hr₁ r₂ hr₂ i₁ i₂ b₁ b₂
      (hblock _ _ _ hb₁) (hblock _ _ _ hb₂)
    memSpace := by
      have hmem := h.memSpace
      rw [← hcharge] at hmem
      exact hmem
    home := by
      intro id' r' hindex
      obtain ⟨hindex, hne⟩ := hfind id' r' hindex
      show pf.cachekey2id ((s.withItem r _).items r').cacheKey = id'
      rw [hitem r' hne]
      exact h.home id' r' hindex
    active := by
      intro id' r' hindex
      obtain ⟨hindex, hne⟩ := hfind id' r' hindex
      show ((s.withItem r _).items r').released = false
      rw [hitem r' hne]
      exact h.active id' r' hindex
    length := by
      intro r' hr'
      show ((s.withItem r _).items r').blocks.length = ((s.withItem r _).items r').blockCount _
      rw [State.withItem_items]
      split
      next heq =>
        subst heq
        exact h.length r' hr'
      next => exact h.length r' hr' }

theorem WF.publish (h : WF pf s) {id : CacheId} {r : ItemRef} (hlive : r ∈ s.liveItems)
    (hhome : s.idOf pf r = id) (hactive : (s.items r).released = false) :
    WF pf { s with accessIndex := s.accessIndex.insert id r } := by
  have hfind : ∀ id' r', ({ s with accessIndex := s.accessIndex.insert id r } : State).find id' =
      some r' → id' = id ∧ r' = r ∨ s.find id' = some r' := by
    intro id' r' hfind
    rw [State.find_insert] at hfind
    split at hfind
    next heq =>
      cases hfind
      exact Or.inl ⟨heq, rfl⟩
    next => exact Or.inr hfind
  exact { h with
    item_held := by
      intro r' hr'
      rcases State.itemHeld_iff.mp hr' with ⟨id', hindex⟩ | hlocal
      · rcases hfind id' r' hindex with ⟨_, rfl⟩ | hindex
        · exact hlive
        · exact h.indexed_live hindex
      · exact h.local_alive hlocal
    home := by
      intro id' r' hindex
      rcases hfind id' r' hindex with ⟨rfl, rfl⟩ | hindex
      · exact hhome
      · exact h.home id' r' hindex
    active := by
      intro id' r' hindex
      rcases hfind id' r' hindex with ⟨rfl, rfl⟩ | hindex
      · exact hactive
      · exact h.active id' r' hindex }

variable {sc : Scenario pf} {a : Action} {x y : World}

theorem Step.wf (hstep : Step sc a x y) (h : Inv sc x) : WF pf y.state := by
  have hwf := h.wf
  cases hstep with
  | idle _ _ _ memSpace diskSpace _ hmem hdisk hlayout =>
      exact { hwf with
        memSpace := hmem _ hwf.memSpace
        diskSpace := hdisk _ hwf.diskSpace
        layer := by
          have := congrArg List.length hlayout.dirs
          simp only [List.length_map] at this
          exact this.trans hwf.layer }
  | emit | clearing | deleting => exact { hwf with }
  | newItem _ _ _ _ hmem _ => exact hwf.newItem hmem
  | newSegment seg _ hmem => exact hwf.newSegment hmem
  | newBlock id sums _ diskSpace _ hdisk hlayout =>
      exact { hwf with
        block_held := fun id hid => List.mem_cons_of_mem _ (hwf.block_held id hid)
        diskSpace := hdisk _ hwf.diskSpace
        layer := by
          have := congrArg List.length hlayout.dirs
          simp only [List.length_map] at this
          exact this.trans hwf.layer }
  | hold x halive => exact hwf.hold halive
  | leave _ hsub => exact hwf.leave hsub
  | collect _ hcollected => exact hcollected
  | touchMem _ _ hinv _ => exact { hwf with memTracker := hinv }
  | memTrack key size _ => exact { hwf with memTracker := (hwf.memTracker.add key size).1 }
  | memUntrack key _ => exact { hwf with memTracker := (hwf.memTracker.remove key).1 }
  | memEvict _ _ hinv => exact { hwf with memTracker := hinv }
  | touchDisk _ _ hinv _ => exact { hwf with diskTracker := hinv }
  | diskTrack id size _ _ => exact { hwf with diskTracker := (hwf.diskTracker.add id size).1 }
  | diskUntrack id _ => exact { hwf with diskTracker := (hwf.diskTracker.remove id).1 }
  | diskEvict _ _ hinv => exact { hwf with diskTracker := hinv }
  | attachMem r i block halive _ _ _ =>
      refine hwf.updateBlock (fun b block' _ hb => Or.inr ?_) fun b id _ hid => Or.inl hid
      cases hb
      exact halive
  | dropMem r i _ =>
      exact hwf.updateBlock (fun b block _ hb => by cases hb) fun b id _ hid => Or.inl hid
  | attachDisk r i id halive howner _ =>
      refine hwf.updateBlock (fun b block _ hb => Or.inl hb) fun b id' _ hid => Or.inr ?_
      cases hid
      exact ⟨halive, howner⟩
  | clearBlock r i _ =>
      exact hwf.updateBlock (fun b block _ hb => by cases hb) fun b id _ hid => by cases hid
  | clearDisk r _ => exact hwf.clearDisk r
  | setPinned r pinned =>
      refine hwf.withItem rfl rfl (fun ⟨id, hfind⟩ => hwf.active id r hfind) rfl ?_ ?_ ?_
      · exact fun hr i b block hb hblock => hwf.mem_alive hr hb hblock
      · exact fun hr i b id hb hid => ⟨hwf.disk_live hr hb hid, hwf.ownerAt hr hb hid⟩
      · exact fun hr i j b b' id hb hb' hid hid' =>
          (hwf.owner r hr r hr i j b b' hb hb' id hid hid').2
  | pinMem key _ _ _ => exact { hwf with memTracker := (hwf.memTracker.remove key).1 }
  | pinDisk id _ _ _ => exact { hwf with diskTracker := (hwf.diskTracker.remove id).1 }
  | expire id r released hfound _ => exact hwf.unlink hfound
  | remove id r released hfound => exact hwf.unlink hfound
  | publish id r hlive hhome hactive => exact hwf.publish hlive hhome hactive
  | write _ _ _ _ _ => exact { hwf with }
  | settle _ _ _ _ => exact hwf

/-! ## Preservation -/

theorem length_blockPart_le (flags : Flags) (value : IOBuf) (i : Nat) :
    (blockPart flags value i).length ≤ flags.blockSize := by
  unfold blockPart
  rw [List.length_take]
  exact Nat.min_le_left ..

/-- An item with fewer blocks on disk, and otherwise the same. -/
theorem ItemOk.withItem {W : Nat → Nat → Prop} {value : IOBuf} {r r' : ItemRef} {item : CacheItem}
    (h : ItemOk pf W value s r') (hsize : item.size = (s.items r).size)
    (hblocks : ∀ (i : Nat) (b : BlockItem), item.blocks[i]? = some b → ∃ b₀, s.HasBlock r i b₀ ∧
      b.memBlockItem = b₀.memBlockItem ∧ (b.diskBlockItem = b₀.diskBlockItem ∨
        b.diskBlockItem = none)) : ItemOk pf W value (s.withItem r item) r' := by
  refine ⟨?_, h.pos, h.le, ?_, ?_⟩
  · rw [State.withItem_items]
    split
    next heq =>
      subst heq
      rw [hsize, h.size]
    next => exact h.size
  · intro i b block hb hblock
    rw [State.hasBlock_withItem] at hb
    split at hb
    next heq =>
      subst heq
      obtain ⟨b₀, hb₀, hmem, _⟩ := hblocks i b hb
      exact h.mem i b₀ block hb₀ (hmem ▸ hblock)
    next => exact h.mem i b block hb hblock
  · intro i b id hb hid
    rw [State.hasBlock_withItem] at hb
    suffices hon : BlockOnDisk pf s (blockPart pf.flags value i) id from hon.of_eq rfl rfl
    split at hb
    next heq =>
      subst heq
      obtain ⟨b₀, hb₀, _, hdisk⟩ := hblocks i b hb
      rcases hdisk with hdisk | hdisk
      · exact h.disk i b₀ id hb₀ (hdisk ▸ hid)
      · rw [hdisk] at hid
        cases hid
    next => exact h.disk i b id hb hid

theorem Step.content (hstep : Step sc a x y) (h : Inv sc x) (hD : sc.D) :
    ∀ r ∈ y.state.liveItems, ItemOk pf (sc.whole r) (sc.val r) y.state r := by
  have hwf := h.wf
  have hok := h.content hD
  cases hstep with
  | @newItem s _ cacheKey size expireTime _ _ hvalue =>
      obtain ⟨hsize, hpos, hle⟩ := hvalue hD
      intro r hr
      rcases List.mem_cons.mp hr with rfl | hr
      · have hblock : ∀ (i : Nat) (b : BlockItem), (Function.update s.items s.itemCount
            (.new pf.flags cacheKey size expireTime) s.itemCount).blocks[i]? = some b →
              b = {} := by
          intro i b hb
          rw [Function.update_self] at hb
          exact List.eq_of_mem_replicate (List.mem_of_getElem? hb)
        refine ⟨?_, by omega, hsize ▸ hle, ?_, ?_⟩
        · dsimp only
          rw [Function.update_self]
          exact hsize
        · intro i b block hb hmem
          cases hblock i b hb
          cases hmem
        · intro i b id hb hid
          cases hblock i b hb
          cases hid
      · exact (hok r hr).of_eq (Function.update_of_ne (Nat.ne_of_lt (hwf.item_lt r hr)) ..)
          rfl rfl rfl
  | newSegment seg _ _ =>
      intro r hr
      refine (hok r hr).frame rfl (fun i b block hb hmem g hg => ?_)
        fun _ _ _ _ _ hon => hon.of_eq rfl rfl
      exact Function.update_of_ne
        (Nat.ne_of_lt (hwf.segment_lt g (hwf.mem_alive hr hb hmem g hg))) ..
  | newBlock id sums _ diskSpace _ hdisk _ =>
      intro r hr
      refine (hok r hr).frame rfl (fun _ _ _ _ _ _ _ => rfl) fun i b id' hb hid hon => ?_
      have hne : id' ≠ id := by
        rintro rfl
        exact (List.nodup_cons.mp (hdisk _ hwf.diskSpace).nodup).1 (hwf.disk_live hr hb hid)
      exact hon.same (length_blockPart_le _ _ _) ⟨Function.update_of_ne hne .., fun _ _ => rfl⟩
  | collect heffect _ =>
      intro r hr
      rw [heffect.items] at hr
      have heq := heffect.eq
      exact (hok r (List.mem_filter.mp hr).1).of_eq (by rw [heq]) (by rw [heq]) (by rw [heq])
        (by rw [heq])
  | attachMem r i block _ hcontent _ _ =>
      intro r' hr'
      refine (hok r' hr').updateBlock (fun b block' heq _ hb => Or.inr ?_) fun b id _ _ hid =>
        Or.inl hid
      cases hb
      exact heq ▸ hcontent hD
  | dropMem r i _ =>
      intro r' hr'
      exact (hok r' hr').updateBlock (fun b block _ _ hb => by cases hb) fun b id _ _ hid =>
        Or.inl hid
  | attachDisk r i id _ _ hcontent =>
      intro r' hr'
      refine (hok r' hr').updateBlock (fun b block _ _ hb => Or.inl hb) fun b id' heq _ hid =>
        Or.inr ?_
      cases hid
      exact heq ▸ hcontent hD
  | clearBlock r i _ =>
      intro r' hr'
      exact (hok r' hr').updateBlock (fun b block _ _ hb => by cases hb)
        fun b id _ _ hid => by cases hid
  | clearDisk r _ =>
      intro r' hr'
      refine (hok r' hr').withItem rfl fun i b hb => ?_
      obtain ⟨b₀, hb₀, rfl⟩ := State.clearDiskBlocks_getElem?.mp hb
      exact ⟨b₀, hb₀, rfl, Or.inr rfl⟩
  | setPinned r pinned =>
      exact fun r' hr' => (hok r' hr').withItem rfl fun i b hb => ⟨b, hb, rfl, Or.inl rfl⟩
  | @expire s _ id r released _ _ =>
      intro r' hr'
      have hitem : ItemOk pf (sc.whole r') (sc.val r') (s.withItem r { s.items r with released }) r' :=
        (hok r' hr').withItem rfl fun i b hb => ⟨b, hb, rfl, Or.inl rfl⟩
      exact hitem.of_eq rfl rfl rfl rfl
  | @remove s _ id r released _ =>
      intro r' hr'
      have hitem : ItemOk pf (sc.whole r') (sc.val r') (s.withItem r { s.items r with released }) r' :=
        (hok r' hr').withItem rfl fun i b hb => ⟨b, hb, rfl, Or.inl rfl⟩
      exact hitem.of_eq rfl rfl rfl rfl
  | write _ _ _ _ hkept =>
      intro r hr
      exact (hok r hr).frame rfl (fun _ _ _ _ _ _ _ => rfl) fun i b id hb hid hon =>
        hkept hD r hr i b id hb hid hon
  | settle => exact hok
  | idle | emit | clearing | deleting | hold | leave | touchMem | memTrack | memUntrack | memEvict
  | touchDisk | diskTrack | diskUntrack | diskEvict | pinMem | pinDisk | publish =>
      exact fun r hr => (hok r hr).of_eq rfl rfl rfl rfl

/-- When the index and the items are the same. -/
theorem Fewer.of_eq (hindex : t.accessIndex = s.accessIndex) (hitems : t.items = s.items)
    (hoptions : t.options = s.options) (htrace : ∀ e ∈ s.trace, e ∈ t.trace) : Fewer s t := by
  refine ⟨fun id r hfind => ⟨?_, by rw [hitems]⟩, ?_, htrace⟩
  · unfold State.find at hfind ⊢
    rwa [hindex] at hfind
  · unfold State.hasDiskLayer
    rw [hoptions]

theorem Fewer.append {e : Event} (hindex : t.accessIndex = s.accessIndex)
    (hitems : t.items = s.items) (hoptions : t.options = s.options)
    (htrace : t.trace = s.trace ++ [e]) : Fewer s t :=
  .of_eq hindex hitems hoptions fun _ he => by rw [htrace]; exact List.mem_append_left _ he

theorem Fewer.newItem (h : WF pf s) (item : CacheItem) (memSpace : MemSpaceManager)
    (itemCount : Nat) (liveItems : List ItemRef) :
    Fewer s { s with memSpace, items := Function.update s.items s.itemCount item, itemCount,
                     liveItems } :=
  ⟨fun _ _ hfind => ⟨hfind, Function.update_of_ne (Nat.ne_of_lt (h.indexed_lt hfind)) ..⟩, rfl,
    fun _ => id⟩

theorem Fewer.collect {t : State} (h : Collects s t) : Fewer s t := by
  have heq := h.eq
  exact .of_eq (by rw [heq]) (by rw [heq]) (by rw [heq]) (by rw [heq]; exact fun _ => id)

theorem Fewer.unlink (h : WF pf s) {id : CacheId} {r : ItemRef} {released : Bool}
    (hfound : s.find id = some r) : Fewer s { s.withItem r { s.items r with released } with
      accessIndex := s.accessIndex.erase id } := by
  refine ⟨fun id' r' hfind => ?_, rfl, fun _ he => he⟩
  have hfind' : (s.accessIndex.erase id).lookup id' = some r' := hfind
  rw [State.find_erase] at hfind'
  split at hfind'
  next => cases hfind'
  next hne =>
    refine ⟨hfind', ?_⟩
    show (s.withItem r _).items r' = s.items r'
    rw [State.withItem_items, if_neg]
    rintro rfl
    exact hne (h.find_inj hfind' hfound)

/-- What a step without effect on items and index leaves of the obligations. -/
structure Keeps (pf : Platform) (s t : State) (g : Ghost) : Prop where
  mem : t.MemEvictable pf g.memOwed
  disk : t.DiskEvictable pf g.diskOwed
  nonEmpty : t.NonEmpty g.hollow

theorem Inv.keeps {g : Ghost} (h : Inv sc ⟨s, g⟩) (hfewer : Fewer s t)
    (hmem : ∀ key r, t.find key.cacheId = some r → s.MemTracked pf key →
      t.MemTracked pf key ∨ key ∈ g.memOwed)
    (hdisk : ∀ id r, t.find id = some r → s.DiskTracked pf id →
      t.DiskTracked pf id ∨ id ∈ g.diskOwed) : Keeps pf s t g :=
  ⟨h.memEvictable.fewer hfewer subset_rfl hmem, h.diskEvictable.fewer hfewer subset_rfl hdisk,
    h.nonEmpty.fewer hfewer subset_rfl⟩

/-- Unlinking keeps the obligations of the other items. -/
theorem Inv.unlink {g : Ghost} (h : Inv sc ⟨s, g⟩) {id : CacheId} {r : ItemRef} {released : Bool}
    (hfound : s.find id = some r) : Keeps pf s { s.withItem r { s.items r with released } with
      accessIndex := s.accessIndex.erase id } g :=
  h.keeps (.unlink h.wf hfound) (fun _ _ _ htracked => Or.inl htracked)
    fun _ _ _ htracked => Or.inl htracked

theorem Inv.setPinned {g : Ghost} (h : Inv sc ⟨s, g⟩) (r : ItemRef) (pinned : Bool) :
    Keeps pf s (s.withItem r { s.items r with pinned })
      ⟨{key | key.cacheId = s.idOf pf r} ∪ g.memOwed, insert (s.idOf pf r) g.diskOwed,
        g.hollow⟩ := by
  have hblock : ∀ r' i b, (s.withItem r { s.items r with pinned }).HasBlock r' i b ↔
      s.HasBlock r' i b := by
    intro r' i b
    rw [State.hasBlock_withItem]
    split
    next heq => rw [heq]; rfl
    next => rfl
  refine ⟨fun id r' i b hfind hb hmem hlocked => ?_, fun id r' i b hfind hb hdisk hpinned => ?_,
    fun id r' hfind => ?_⟩
  · by_cases heq : r' = r
    · subst heq
      exact Or.inr (Or.inl (h.wf.home id r' hfind).symm)
    · have hitem : (s.withItem r { s.items r with pinned }).items r' = s.items r' := by
        rw [State.withItem_items, if_neg heq]
      unfold State.Locked at hlocked
      rw [hitem] at hlocked
      exact (h.memEvictable id r' i b hfind ((hblock r' i b).mp hb) hmem hlocked).imp_right Or.inr
  · by_cases heq : r' = r
    · subst heq
      exact Or.inr (Or.inl (Or.inl (h.wf.home id r' hfind).symm))
    · rw [State.withItem_items, if_neg heq] at hpinned
      exact (h.diskEvictable id r' i b hfind ((hblock r' i b).mp hb) hdisk hpinned).imp_right
        (Or.imp_left Or.inr)
  · refine (h.nonEmpty id r' hfind).imp_left ?_
    rintro ⟨i, b, hb, hne⟩
    exact ⟨i, b, (hblock r' i b).mpr hb, hne⟩

theorem Inv.publish {g : Ghost} (h : Inv sc ⟨s, g⟩) (id : CacheId) (r : ItemRef) :
    Keeps pf s { s with accessIndex := s.accessIndex.insert id r }
      ⟨{key | key.cacheId = id} ∪ g.memOwed, insert id g.diskOwed, insert r g.hollow⟩ := by
  refine ⟨fun id' r' i b hfind hb hmem hlocked => ?_, fun id' r' i b hfind hb hdisk hpinned => ?_,
    fun id' r' hfind => ?_⟩
  all_goals rw [State.find_insert] at hfind
  · split at hfind
    next heq => exact Or.inr (Or.inl heq)
    next => exact (h.memEvictable id' r' i b hfind hb hmem hlocked).imp_right Or.inr
  · split at hfind
    next heq => exact Or.inr (Or.inl (Or.inl heq))
    next =>
      exact (h.diskEvictable id' r' i b hfind hb hdisk hpinned).imp_right (Or.imp_left Or.inr)
  · split at hfind
    next =>
      cases hfind
      exact Or.inr (Or.inl (Or.inl rfl))
    next => exact (h.nonEmpty id' r' hfind).imp_right (Or.imp_left Or.inr)

/-- Giving up the disk blocks of an item. -/
theorem Inv.clearDisk {g : Ghost} (h : Inv sc ⟨s, g⟩) (r : ItemRef) :
    Keeps pf s (s.withItem r (s.items r).clearDiskBlocks)
      { g with hollow := insert r g.hollow } := by
  have hblock : ∀ r' i b, (s.withItem r (s.items r).clearDiskBlocks).HasBlock r' i b →
      ∃ b₀, s.HasBlock r' i b₀ ∧ b.memBlockItem = b₀.memBlockItem ∧
        (b.diskBlockItem ≠ none → b₀.diskBlockItem ≠ none) := by
    intro r' i b hb
    rw [State.hasBlock_withItem] at hb
    split at hb
    next heq =>
      subst heq
      obtain ⟨b₀, hb₀, rfl⟩ := State.clearDiskBlocks_getElem?.mp hb
      exact ⟨b₀, hb₀, rfl, fun hne => (hne rfl).elim⟩
    next => exact ⟨b, hb, rfl, fun hne => hne⟩
  have hpinned : ∀ r', ((s.withItem r (s.items r).clearDiskBlocks).items r').pinned =
      (s.items r').pinned := by
    intro r'
    rw [State.withItem_items]
    split
    next heq => rw [heq]; rfl
    next => rfl
  refine ⟨fun id r' i b hfind hb hmem hlocked => ?_, fun id r' i b hfind hb hdisk hp => ?_,
    fun id r' hfind => ?_⟩
  · obtain ⟨b₀, hb₀, heq, _⟩ := hblock r' i b hb
    unfold State.Locked at hlocked
    rw [hpinned] at hlocked
    exact h.memEvictable id r' i b₀ hfind hb₀ (heq ▸ hmem) hlocked
  · obtain ⟨b₀, hb₀, _, hdisk₀⟩ := hblock r' i b hb
    rw [hpinned] at hp
    exact h.diskEvictable id r' i b₀ hfind hb₀ (hdisk₀ hdisk) hp
  · by_cases heq : r' = r
    · exact Or.inr (Or.inl (Or.inl heq))
    · rcases h.nonEmpty id r' hfind with ⟨i, b, hb, hne⟩ | hin | hevent
      · refine Or.inl ⟨i, b, ?_, hne⟩
        rw [State.hasBlock_withItem, if_neg heq]
        exact hb
      · exact Or.inr (Or.inl (Or.inr hin))
      · exact Or.inr (Or.inr hevent)

theorem Step.keeps (hstep : Step sc a x y) (h : Inv sc x) :
    Keeps pf x.state y.state y.ghost := by
  have hwf := h.wf
  have hsame : ∀ {s t : State} {key : BlockKey} {owed : Set BlockKey},
      t.memTracker = s.memTracker → s.MemTracked pf key →
        t.MemTracked pf key ∨ key ∈ owed := by
    intro s t key owed heq htracked
    unfold State.MemTracked at htracked ⊢
    rw [heq]
    exact Or.inl htracked
  have hsame' : ∀ {s t : State} {id : CacheId} {owed : Set CacheId},
      t.diskTracker = s.diskTracker → s.DiskTracked pf id →
        t.DiskTracked pf id ∨ id ∈ owed := by
    intro s t id owed heq htracked
    unfold State.DiskTracked at htracked ⊢
    rw [heq]
    exact Or.inl htracked
  cases hstep with
  | emit | clearing | deleting =>
      exact h.keeps (.append rfl rfl rfl rfl) (fun _ _ _ => hsame rfl) fun _ _ _ => hsame' rfl
  | newItem =>
      exact h.keeps (.newItem hwf ..) (fun _ _ _ => hsame rfl) fun _ _ _ => hsame' rfl
  | collect heffect _ =>
      have heq := heffect.eq
      exact h.keeps (.collect heffect) (fun _ _ _ => hsame (by rw [heq]))
        fun _ _ _ => hsame' (by rw [heq])
  | touchMem memTracker _ _ htracked =>
      exact h.keeps (.of_eq rfl rfl rfl fun _ he => he)
        (fun key _ _ hkey => Or.inl ((htracked key).mpr hkey)) fun _ _ _ => hsame' rfl
  | memTrack key size _ =>
      exact h.keeps (.append rfl rfl rfl rfl)
        (fun key' _ _ hkey => Or.inl (((hwf.memTracker.add key size).2.1 key').mpr (Or.inr hkey)))
        fun _ _ _ => hsame' rfl
  | memUntrack key hgone =>
      refine h.keeps (.of_eq rfl rfl rfl fun _ he => he) (fun key' r hfind hkey => Or.inl ?_)
        fun _ _ _ => hsame' rfl
      refine ((hwf.memTracker.remove key).2.1 key').mpr ⟨hkey, ?_⟩
      rintro rfl
      have hfind' : some r = none := hfind.symm.trans hgone
      cases hfind'
  | @memEvict s g keys _ _ _ htracked _ =>
      refine ⟨h.memEvictable.fewer (.append rfl rfl rfl rfl) Set.subset_union_right fun key r _ hkey => ?_,
        h.diskEvictable.fewer (.append rfl rfl rfl rfl) subset_rfl fun _ _ _ => hsame' rfl,
        h.nonEmpty.fewer (.append rfl rfl rfl rfl) subset_rfl⟩
      by_cases hin : key ∈ keys
      · exact Or.inr (Or.inl hin)
      · exact Or.inl ((htracked key).mpr ⟨hkey, hin⟩)
  | touchDisk diskTracker _ _ htracked =>
      exact h.keeps (.of_eq rfl rfl rfl fun _ he => he) (fun _ _ _ => hsame rfl)
        fun id _ _ hid => Or.inl ((htracked id).mpr hid)
  | diskTrack id size _ _ =>
      exact h.keeps (.append rfl rfl rfl rfl) (fun _ _ _ => hsame rfl) fun id' _ _ hid =>
        Or.inl (((hwf.diskTracker.add id size).2.1 id').mpr (Or.inr hid))
  | diskUntrack id hgone =>
      refine h.keeps (.of_eq rfl rfl rfl fun _ he => he) (fun _ _ _ => hsame rfl)
        fun id' r hfind hid => Or.inl ?_
      refine ((hwf.diskTracker.remove id).2.1 id').mpr ⟨hid, ?_⟩
      rintro rfl
      have hfind' : some r = none := hfind.symm.trans hgone
      cases hfind'
  | @diskEvict s g ids _ _ _ htracked _ =>
      refine ⟨h.memEvictable.fewer (.append rfl rfl rfl rfl) subset_rfl fun _ _ _ => hsame rfl,
        h.diskEvictable.fewer (.append rfl rfl rfl rfl) Set.subset_union_right fun id r _ hid => ?_,
        h.nonEmpty.fewer (.append rfl rfl rfl rfl) subset_rfl⟩
      by_cases hin : id ∈ ids
      · exact Or.inr (Or.inl hin)
      · exact Or.inl ((htracked id).mpr ⟨hid, hin⟩)
  | attachMem r i block _ _ _ _ =>
      refine ⟨h.memEvictable.updateBlock (Set.subset_insert _ _) fun b _ _ => Or.inr ?_,
        h.diskEvictable.updateBlock subset_rfl fun b _ hb => Or.inl hb,
        h.nonEmpty.updateBlock subset_rfl fun b _ hb => by cases hb⟩
      intro id hfind
      exact Or.inl (by rw [State.idOf, hwf.home id r hfind])
  | dropMem r i _ =>
      exact ⟨h.memEvictable.updateBlock subset_rfl fun b _ hb => (hb rfl).elim,
        h.diskEvictable.updateBlock subset_rfl fun b _ hb => Or.inl hb,
        h.nonEmpty.updateBlock (Set.subset_insert _ _) fun b _ _ => Or.inr (Or.inl rfl)⟩
  | attachDisk r i id _ _ _ =>
      refine ⟨h.memEvictable.updateBlock subset_rfl fun b _ hb => Or.inl hb,
        h.diskEvictable.updateBlock (Set.subset_insert _ _) fun b _ _ => Or.inr ?_,
        h.nonEmpty.updateBlock subset_rfl fun b _ hb => ?_⟩
      · intro id' hfind
        exact Or.inl (by rw [State.idOf, hwf.home id' r hfind])
      · unfold BlockItem.isEmpty at hb
        simp at hb
  | clearBlock r i _ =>
      exact ⟨h.memEvictable.updateBlock subset_rfl fun b _ hb => (hb rfl).elim,
        h.diskEvictable.updateBlock subset_rfl fun b _ hb => (hb rfl).elim,
        h.nonEmpty.updateBlock (Set.subset_insert _ _) fun b _ _ => Or.inr (Or.inl rfl)⟩
  | clearDisk r _ => exact h.clearDisk r
  | setPinned r pinned => exact h.setPinned r pinned
  | @pinMem s g key r hfound hlocked =>
      refine ⟨fun id r' i b hfind hb hmem hfree => ?_, h.diskEvictable.fewer (.of_eq rfl rfl rfl
        fun _ he => he) subset_rfl fun _ _ _ => hsame' rfl, h.nonEmpty⟩
      refine (h.memEvictable id r' i b hfind hb hmem hfree).imp_left fun htracked => ?_
      refine ((hwf.memTracker.remove key).2.1 ⟨id, i⟩).mpr ⟨htracked, ?_⟩
      rintro rfl
      obtain rfl : r' = r := Option.some.inj (hfind.symm.trans hfound)
      exact hfree hlocked
  | @pinDisk s g id r hfound hpinned =>
      refine ⟨h.memEvictable.fewer (.of_eq rfl rfl rfl fun _ he => he) subset_rfl
        fun _ _ _ => hsame rfl, fun id' r' i b hfind hb hdisk hfree => ?_, h.nonEmpty⟩
      refine (h.diskEvictable id' r' i b hfind hb hdisk hfree).imp_left fun htracked => ?_
      refine ((hwf.diskTracker.remove id).2.1 id').mpr ⟨htracked, ?_⟩
      rintro rfl
      obtain rfl : r' = r := Option.some.inj (hfind.symm.trans hfound)
      exact Bool.false_ne_true (hfree.symm.trans hpinned)
  | expire id r released hfound _ => exact h.unlink hfound
  | remove id r released hfound => exact h.unlink hfound
  | publish id r _ _ _ => exact h.publish id r
  | settle g' hmem hdisk hempty => exact ⟨hmem, hdisk, hempty⟩
  | idle | newSegment | newBlock | hold | leave | write =>
      exact h.keeps (.of_eq rfl rfl rfl fun _ he => he) (fun _ _ _ => hsame rfl)
        fun _ _ _ => hsame' rfl

/-- Every step keeps the invariant. -/
theorem Step.inv (hstep : Step sc a x y) (h : Inv sc x) : Inv sc y := by
  have hkeeps := hstep.keeps h
  refine ⟨hstep.wf h, hstep.content h, hkeeps.mem, hkeeps.disk, hkeeps.nonEmpty, fun hT => ?_, ?_⟩
  · have hcovered := h.covered hT
    cases hstep with
    | idle _ _ _ _ _ _ _ _ hlayout => exact hcovered.layout hlayout
    | newBlock _ _ _ _ _ _ hlayout => exact hcovered.layout hlayout
    | collect heffect _ => exact hcovered.layout heffect.layout
    | emit | clearing | deleting | newItem | newSegment | hold | leave | touchMem | memTrack
    | memUntrack | memEvict | touchDisk | diskTrack | diskUntrack | diskEvict | attachMem | dropMem
    | attachDisk | clearBlock | clearDisk | setPinned | pinMem | pinDisk | expire | remove | publish | write | settle =>
        exact hcovered
  · have hclock := h.clock
    cases hstep with
    | idle _ _ _ _ _ hle => exact Nat.le_trans hclock hle
    | newBlock _ _ _ _ hle => exact Nat.le_trans hclock hle
    | write _ _ _ hle => exact Nat.le_trans hclock hle
    | collect heffect _ =>
        rw [heffect.eq]
        exact hclock
    | emit | clearing | deleting | newItem | newSegment | hold | leave | touchMem | memTrack
    | memUntrack | memEvict | touchDisk | diskTrack | diskUntrack | diskEvict | attachMem | dropMem
    | attachDisk | clearBlock | clearDisk | setPinned | pinMem | pinDisk | expire | remove | publish | settle => exact hclock

theorem Inv.runs {P : Action → Prop} (h : Inv sc x) (hruns : Runs sc P x y) : Inv sc y :=
  hruns.invariant (Inv sc) (fun _ _ _ _ hstep hinv => hstep.inv hinv) h

end StarCache
