import StarCache.State
import Mathlib.Data.List.Perm.Basic

/-!
# Ownership of shared objects

`WF` says that whatever is referred to is alive, that no disk block has two
owners, and that both space managers account for exactly the living objects.
`collect` restores the converse: what is alive is referred to.
-/

namespace StarCache

open Prog

namespace State

variable {s : State}

/-- Block `i` of item `r` is `b`. -/
def HasBlock (s : State) (r : ItemRef) (i : Nat) (b : BlockItem) : Prop :=
  (s.items r).blocks[i]? = some b

theorem find_eq_some {id : CacheId} {r : ItemRef} :
    s.find id = some r ↔ ⟨id, r⟩ ∈ s.accessIndex.entries := AList.mem_lookup_iff

theorem itemHeld_iff {r : ItemRef} :
    s.itemHeld r = true ↔ (∃ id, s.find id = some r) ∨ .item r ∈ s.locals := by
  unfold itemHeld
  rw [Bool.or_eq_true, List.any_eq_true, List.any_eq_true]
  refine or_congr ?_ ?_
  · constructor
    · rintro ⟨⟨id, r'⟩, hmem, heq⟩
      obtain rfl : r' = r := by simpa using heq
      exact ⟨id, find_eq_some.mpr hmem⟩
    · rintro ⟨id, hfind⟩
      exact ⟨⟨id, r⟩, find_eq_some.mp hfind, by simp⟩
  · constructor
    · rintro ⟨x, hmem, heq⟩
      cases x with
      | item r' =>
          obtain rfl : r' = r := by simpa using heq
          exact hmem
      | segment | memBlock | diskBlock => simp at heq
    · intro hmem
      exact ⟨_, hmem, by simp⟩

theorem mem_blocks_iff {r : ItemRef} {b : BlockItem} :
    b ∈ (s.items r).blocks ↔ ∃ i, s.HasBlock r i b := by
  unfold HasBlock
  rw [List.mem_iff_getElem?]

theorem segmentHeld_iff {g : SegmentRef} :
    s.segmentHeld g = true ↔
      (∃ r ∈ s.liveItems, ∃ i b block, s.HasBlock r i b ∧ b.memBlockItem = some block ∧
        some g ∈ block.slices) ∨
      .segment g ∈ s.locals ∨ ∃ block, .memBlock block ∈ s.locals ∧ some g ∈ block.slices := by
  unfold segmentHeld
  rw [Bool.or_eq_true, List.any_eq_true, List.any_eq_true]
  refine or_congr ?_ ?_
  · constructor
    · rintro ⟨r, hr, hany⟩
      obtain ⟨b, hb, hslices⟩ := List.any_eq_true.mp hany
      obtain ⟨i, hi⟩ := mem_blocks_iff.mp hb
      cases hblock : b.memBlockItem with
      | none => simp [hblock] at hslices
      | some block => exact ⟨r, hr, i, b, block, hi, hblock, by simpa [hblock] using hslices⟩
    · rintro ⟨r, hr, i, b, block, hi, hblock, hg⟩
      refine ⟨r, hr, List.any_eq_true.mpr ⟨b, mem_blocks_iff.mpr ⟨i, hi⟩, ?_⟩⟩
      simp [hblock, hg]
  · constructor
    · rintro ⟨x, hmem, heq⟩
      cases x with
      | segment g' =>
          obtain rfl : g' = g := by simpa using heq
          exact Or.inl hmem
      | memBlock block => exact Or.inr ⟨block, hmem, by simpa using heq⟩
      | item | diskBlock => simp at heq
    · rintro (hmem | ⟨block, hmem, hg⟩)
      · exact ⟨_, hmem, by simp⟩
      · exact ⟨_, hmem, by simpa using hg⟩

theorem blockHeld_iff {id : BlockId} :
    s.blockHeld id = true ↔
      (∃ r ∈ s.liveItems, ∃ i b, s.HasBlock r i b ∧ b.diskBlockItem = some id) ∨
      .diskBlock id ∈ s.locals := by
  unfold blockHeld
  rw [Bool.or_eq_true, List.any_eq_true, List.any_eq_true]
  refine or_congr ?_ ?_
  · constructor
    · rintro ⟨r, hr, hany⟩
      obtain ⟨b, hb, hid⟩ := List.any_eq_true.mp hany
      obtain ⟨i, hi⟩ := mem_blocks_iff.mp hb
      exact ⟨r, hr, i, b, hi, by simpa using hid⟩
    · rintro ⟨r, hr, i, b, hi, hid⟩
      exact ⟨r, hr, List.any_eq_true.mpr ⟨b, mem_blocks_iff.mpr ⟨i, hi⟩, by simp [hid]⟩⟩
  · constructor
    · rintro ⟨x, hmem, heq⟩
      cases x with
      | diskBlock id' =>
          obtain rfl : id' = id := by simpa using heq
          exact hmem
      | item | segment | memBlock => simp at heq
    · intro hmem
      exact ⟨_, hmem, by simp⟩

end State

/-! ## The invariant -/

variable {pf : Platform} {s t : State}

structure WF (pf : Platform) (s : State) : Prop where
  item_lt : ∀ r ∈ s.liveItems, r < s.itemCount
  item_nodup : s.liveItems.Nodup
  item_held : ∀ r, s.itemHeld r = true → r ∈ s.liveItems
  segment_lt : ∀ g ∈ s.liveSegments, g < s.segmentCount
  segment_nodup : s.liveSegments.Nodup
  segment_held : ∀ g, s.segmentHeld g = true → g ∈ s.liveSegments
  block_held : ∀ id, s.blockHeld id = true → id ∈ s.liveBlocks
  /-- A disk block belongs to one place of one item. -/
  owner : ∀ r ∈ s.liveItems, ∀ r' ∈ s.liveItems, ∀ i i' b b', s.HasBlock r i b →
    s.HasBlock r' i' b' → ∀ id, b.diskBlockItem = some id → b'.diskBlockItem = some id →
      r = r' ∧ i = i'
  memSpace : s.memSpace.Accounts ((s.itemsCharge pf s.liveItems).sum +
    (s.segmentsCharge pf s.liveSegments).sum)
  diskSpace : s.diskSpace.Inv pf.flags s.liveBlocks
  layer : s.diskSpace.cacheDirs.length = s.options.diskDirSpaces.length
  memTracker : s.memTracker.Inv pf.blockKeyHash s.memHandles
  diskTracker : s.diskTracker.Inv pf.cacheIdHash s.diskHandles
  /-- An item is indexed under the id of its key. -/
  home : ∀ id r, s.find id = some r → pf.cachekey2id (s.items r).cacheKey = id
  active : ∀ id r, s.find id = some r → (s.items r).released = false
  length : ∀ r ∈ s.liveItems, (s.items r).blocks.length = (s.items r).blockCount pf.flags

/-- Everything alive is referred to. -/
structure Collected (s : State) : Prop where
  item : ∀ r ∈ s.liveItems, s.itemHeld r = true
  segment : ∀ g ∈ s.liveSegments, s.segmentHeld g = true
  block : ∀ id ∈ s.liveBlocks, s.blockHeld id = true

theorem WF.indexed_live (h : WF pf s) {id : CacheId} {r : ItemRef} (hfind : s.find id = some r) :
    r ∈ s.liveItems := h.item_held r (State.itemHeld_iff.mpr (Or.inl ⟨id, hfind⟩))

theorem WF.find_inj (h : WF pf s) {id id' : CacheId} {r : ItemRef} (hfind : s.find id = some r)
    (hfind' : s.find id' = some r) : id = id' := by
  rw [← h.home id r hfind, ← h.home id' r hfind']

/-- The charges of a list are those of its two halves. -/
theorem sum_filter_add {α : Type} (xs : List α) (p : α → Bool) (f : α → Nat) :
    ((xs.filter fun x => !p x).map f).sum + ((xs.filter p).map f).sum = (xs.map f).sum := by
  have hperm := (List.filter_append_perm p xs).map f
  rw [← hperm.sum_nat, List.map_append, List.sum_append, Nat.add_comm]

theorem freeItems_wf (h : WF pf s) {t : State} (ht : freeItems pf s = some ((), t)) :
    WF pf t ∧ t.memSpace.quotaBytes = s.memSpace.quotaBytes ∧ t = { s with
      liveItems := s.liveItems.filter s.itemHeld
      memSpace := t.memSpace } := by
  obtain rfl := (Prod.mk.inj (Option.some.inj ht)).2.symm
  refine ⟨?_, MemSpaceManager.decMem_list_quota _ _, rfl⟩
  have hsub : ∀ r, r ∈ s.liveItems.filter s.itemHeld → r ∈ s.liveItems := fun r hr =>
    (List.mem_filter.mp hr).1
  constructor
  case item_lt => exact fun r hr => h.item_lt r (hsub r hr)
  case item_nodup => exact h.item_nodup.filter _
  case item_held => exact fun r hr => List.mem_filter.mpr ⟨h.item_held r hr, hr⟩
  case segment_lt => exact h.segment_lt
  case segment_nodup => exact h.segment_nodup
  case segment_held =>
    intro g hg
    apply h.segment_held
    rw [State.segmentHeld_iff] at hg ⊢
    refine hg.imp_left ?_
    rintro ⟨r, hr, hrest⟩
    exact ⟨r, hsub r hr, hrest⟩
  case block_held =>
    intro id hid
    apply h.block_held
    rw [State.blockHeld_iff] at hid ⊢
    refine hid.imp_left ?_
    rintro ⟨r, hr, hrest⟩
    exact ⟨r, hsub r hr, hrest⟩
  case owner => exact fun r hr r' hr' => h.owner r (hsub r hr) r' (hsub r' hr')
  case memSpace =>
    refine MemSpaceManager.decMem_list_accounts ?_
    have hmem := h.memSpace
    unfold State.itemsCharge at hmem ⊢
    rw [← Nat.add_assoc, sum_filter_add]
    exact hmem
  case diskSpace => exact h.diskSpace
  case layer => exact h.layer
  case memTracker => exact h.memTracker
  case diskTracker => exact h.diskTracker
  case home => exact h.home
  case active => exact h.active
  case length => exact fun r hr => h.length r (hsub r hr)

theorem freeSegments_wf (h : WF pf s) {t : State} (ht : freeSegments pf s = some ((), t)) :
    WF pf t ∧ t.memSpace.quotaBytes = s.memSpace.quotaBytes ∧ t = { s with
      liveSegments := s.liveSegments.filter s.segmentHeld
      memSpace := t.memSpace } := by
  obtain rfl := (Prod.mk.inj (Option.some.inj ht)).2.symm
  refine ⟨?_, MemSpaceManager.decMem_list_quota _ _, rfl⟩
  have hsub : ∀ g, g ∈ s.liveSegments.filter s.segmentHeld → g ∈ s.liveSegments := fun g hg =>
    (List.mem_filter.mp hg).1
  refine { h with
    segment_lt := fun g hg => h.segment_lt g (hsub g hg)
    segment_nodup := h.segment_nodup.filter _
    segment_held := fun g hg => List.mem_filter.mpr ⟨h.segment_held g hg, hg⟩
    memSpace := ?_ }
  refine MemSpaceManager.decMem_list_accounts ?_
  have hmem := h.memSpace
  unfold State.segmentsCharge at hmem ⊢
  have hsum := sum_filter_add s.liveSegments s.segmentHeld
    fun g => segmentCharge pf (s.segments g).buf
  dsimp only at hsum ⊢
  rw [← hsum] at hmem
  rw [show ∀ a b c : Nat, a + (b + c) = b + (a + c) by omega]
  exact hmem

theorem freeBlocks_spec {T : Prop} (h : WF pf s) :
    Spec T (freeBlocks pf) (fun _ t => WF pf t ∧
      DiskSpaceManager.SameLayout s.diskSpace t.diskSpace ∧
      t = { s with
        liveBlocks := s.liveBlocks.filter s.blockHeld
        diskSpace := t.diskSpace }) s := by
  unfold freeBlocks
  simp only [spec_bind, spec_read]
  generalize hkept : s.liveBlocks.filter s.blockHeld = kept
  have hperm : s.liveBlocks.Perm ((s.liveBlocks.filter fun id => !s.blockHeld id) ++ kept) := by
    rw [← hkept]
    exact (List.perm_append_comm.trans (List.filter_append_perm s.blockHeld s.liveBlocks)).symm
  refine (spec_forEach (fun rest t => ∃ d, t = { s with diskSpace := d } ∧
    d.Inv pf.flags (rest ++ kept) ∧ DiskSpaceManager.SameLayout s.diskSpace d) ?_ _ s
    ⟨s.diskSpace, rfl, h.diskSpace.perm hperm, .refl _⟩).mono ?_
  · rintro id rest t ⟨d, rfl, hinv, hlayout⟩
    refine spec_zoom ?_
    unfold Spec
    cases hfree : DiskSpaceManager.freeBlock pf.flags id d with
    | none => exact absurd hfree (hinv.freeBlock_defined (List.mem_cons_self ..))
    | some result =>
        obtain ⟨⟨⟩, d'⟩ := result
        obtain ⟨hsame, hinv'⟩ := hinv.freeBlock hfree
        exact ⟨d', rfl, hinv', hlayout.trans hsame⟩
  · rintro _ t ⟨d, rfl, hinv, hlayout⟩
    simp only [spec_modify]
    have hheld : ∀ id, ({ s with diskSpace := d } : State).blockHeld id = s.blockHeld id :=
      fun _ => rfl
    refine ⟨?_, hlayout, by rw [← hkept]; rfl⟩
    have hlen : d.cacheDirs.length = s.diskSpace.cacheDirs.length := by
      have := congrArg List.length hlayout.dirs
      simpa using this
    exact { h with
      block_held := fun id hid => List.mem_filter.mpr ⟨h.block_held id hid, hid⟩
      diskSpace := by
        show d.Inv pf.flags (s.liveBlocks.filter s.blockHeld)
        rw [hkept]
        exact hinv
      layer := hlen.trans h.layer }

/-- The effect of `collect`: the live lists shrink to what is referred to and the
space managers get the rest back. -/
structure Collects (s t : State) : Prop where
  layout : DiskSpaceManager.SameLayout s.diskSpace t.diskSpace
  quota : t.memSpace.quotaBytes = s.memSpace.quotaBytes
  eq : t = { s with
    liveItems := t.liveItems
    liveSegments := t.liveSegments
    liveBlocks := t.liveBlocks
    memSpace := t.memSpace
    diskSpace := t.diskSpace }
  items : t.liveItems = s.liveItems.filter s.itemHeld
  segments : ∀ g ∈ t.liveSegments, g ∈ s.liveSegments
  blocks : ∀ id ∈ t.liveBlocks, id ∈ s.liveBlocks

theorem collect_spec {T : Prop} (h : WF pf s) :
    Spec T (collect pf) (fun _ t => WF pf t ∧ Collected t ∧ Collects s t) s := by
  unfold collect
  simp only [spec_bind]
  unfold Spec
  cases hitems : freeItems pf s with
  | none => cases hitems
  | some result =>
      obtain ⟨⟨⟩, s₁⟩ := result
      obtain ⟨hwf₁, hquota₁, heq₁⟩ := freeItems_wf h hitems
      dsimp only
      cases hsegments : freeSegments pf s₁ with
      | none => cases hsegments
      | some result =>
          obtain ⟨⟨⟩, s₂⟩ := result
          obtain ⟨hwf₂, hquota₂, heq₂⟩ := freeSegments_wf hwf₁ hsegments
          refine Spec.mono (freeBlocks_spec hwf₂) ?_
          rintro _ t ⟨hwf, hlayout, heq⟩
          have hlive₁ : s₁.liveItems = s.liveItems.filter s.itemHeld := by rw [heq₁]
          have hlive : t.liveItems = s.liveItems.filter s.itemHeld := by rw [heq, heq₂, hlive₁]
          have hsegs : t.liveSegments = s₁.liveSegments.filter s₁.segmentHeld := by
            rw [heq, heq₂]
          have hblocks : t.liveBlocks = s₂.liveBlocks.filter s₂.blockHeld := by rw [heq]
          have hitem : ∀ r, t.itemHeld r = s.itemHeld r := by
            intro r
            rw [heq, heq₂, heq₁]
            rfl
          have hsegment : ∀ g, t.segmentHeld g = s₁.segmentHeld g := by
            intro g
            rw [heq, heq₂]
            rfl
          have hblock : ∀ id, t.blockHeld id = s₂.blockHeld id := by
            intro id
            rw [heq]
            rfl
          refine ⟨hwf, ⟨?_, ?_, ?_⟩, ?_, ?_, ?_, hlive, ?_, ?_⟩
          · intro r hr
            rw [hitem]
            rw [hlive] at hr
            exact (List.mem_filter.mp hr).2
          · intro g hg
            rw [hsegment]
            rw [hsegs] at hg
            exact (List.mem_filter.mp hg).2
          · intro id hid
            rw [hblock]
            rw [hblocks] at hid
            exact (List.mem_filter.mp hid).2
          · have hdisk : s₂.diskSpace = s.diskSpace := by rw [heq₂, heq₁]
            rwa [hdisk] at hlayout
          · rw [heq]
            exact hquota₂.trans hquota₁
          · rw [heq, heq₂, heq₁]
          · intro g hg
            rw [hsegs] at hg
            have := (List.mem_filter.mp hg).1
            rwa [heq₁] at this
          · intro id hid
            rw [hblocks] at hid
            have := (List.mem_filter.mp hid).1
            rwa [heq₂, heq₁] at this

end StarCache
