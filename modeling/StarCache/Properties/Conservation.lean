import StarCache.Refinement.Runs
import Mathlib.Data.List.Dedup

/-!
# Conservation of resources

Between calls the two space managers account for exactly what the indexed items
hold: nothing is leaked, and nothing is freed twice.
-/

namespace StarCache

open Prog MachineInt StarCacheImpl

namespace State

variable (s : State)

def indexedItems : List ItemRef := s.accessIndex.entries.map (·.2)

/-- The segments in the slices of an item. -/
def itemSegments (r : ItemRef) : List SegmentRef :=
  (s.items r).blocks.flatMap fun b => b.memBlockItem.toList.flatMap fun block =>
    block.slices.filterMap id

/-- Each segment once, in however many slices it is. -/
def reachableSegments : List SegmentRef := (s.indexedItems.flatMap s.itemSegments).dedup

/-- The disk blocks of the indexed items, one for each block that has one. -/
def heldBlocks : List BlockId :=
  s.indexedItems.flatMap fun r => (s.items r).blocks.filterMap (·.diskBlockItem)

theorem mem_indexedItems {r : ItemRef} : r ∈ s.indexedItems ↔ s.Indexed r := by
  unfold indexedItems Indexed
  rw [List.mem_map]
  constructor
  · rintro ⟨⟨id, r'⟩, hmem, rfl⟩
    exact ⟨id, find_eq_some.mpr hmem⟩
  · rintro ⟨id, hfind⟩
    exact ⟨⟨id, r⟩, find_eq_some.mp hfind, rfl⟩

theorem mem_itemSegments {r : ItemRef} {g : SegmentRef} : g ∈ s.itemSegments r ↔
    ∃ i b block, s.HasBlock r i b ∧ b.memBlockItem = some block ∧ some g ∈ block.slices := by
  unfold itemSegments
  simp only [List.mem_flatMap, Option.mem_toList, List.mem_filterMap, id_eq, exists_eq_right]
  constructor
  · rintro ⟨b, hb, block, hblock, hg⟩
    obtain ⟨i, hi⟩ := mem_blocks_iff.mp hb
    exact ⟨i, b, block, hi, hblock, hg⟩
  · rintro ⟨i, b, block, hb, hblock, hg⟩
    exact ⟨b, mem_blocks_iff.mpr ⟨i, hb⟩, block, hblock, hg⟩

theorem mem_heldBlocks {id : BlockId} : id ∈ s.heldBlocks ↔
    ∃ r i b, s.Indexed r ∧ s.HasBlock r i b ∧ b.diskBlockItem = some id := by
  unfold heldBlocks
  simp only [List.mem_flatMap, List.mem_filterMap, mem_indexedItems]
  constructor
  · rintro ⟨r, hr, b, hb, hid⟩
    obtain ⟨i, hi⟩ := mem_blocks_iff.mp hb
    exact ⟨r, i, b, hr, hi, hid⟩
  · rintro ⟨r, i, b, hr, hb, hid⟩
    exact ⟨r, hr, b, mem_blocks_iff.mpr ⟨i, hb⟩, hid⟩

end State

section Conservation

variable {pf : Platform} {s : State}

/-- Ids name different items. -/
theorem WF.indexedItems_nodup (h : WF pf s) : s.indexedItems.Nodup := by
  unfold State.indexedItems
  refine List.Nodup.map_on ?_ (List.Nodup.of_map _ s.accessIndex.nodupKeys)
  rintro ⟨id, r⟩ hmem ⟨id', r'⟩ hmem' rfl
  rw [h.find_inj (State.find_eq_some.mpr hmem) (State.find_eq_some.mpr hmem')]

theorem WF.liveItems_perm (h : WF pf s) (hquiet : Quiet s) : s.liveItems.Perm s.indexedItems := by
  rw [List.perm_ext_iff_of_nodup h.item_nodup h.indexedItems_nodup]
  intro r
  rw [State.mem_indexedItems]
  refine ⟨fun hr => ?_, fun ⟨id, hfind⟩ => h.indexed_live hfind⟩
  rcases State.itemHeld_iff.mp (hquiet.collected.item r hr) with hindexed | hlocal
  · exact hindexed
  · rw [hquiet.locals] at hlocal
    cases hlocal

theorem WF.liveSegments_perm (h : WF pf s) (hquiet : Quiet s) :
    s.liveSegments.Perm s.reachableSegments := by
  unfold State.reachableSegments
  rw [List.perm_ext_iff_of_nodup h.segment_nodup (List.nodup_dedup _)]
  intro g
  rw [List.mem_dedup, List.mem_flatMap]
  constructor
  · intro hg
    rcases State.segmentHeld_iff.mp (hquiet.collected.segment g hg) with
      ⟨r, hr, i, b, block, hb, hblock, hslice⟩ | hlocal | ⟨block, hlocal, _⟩
    · exact ⟨r, (h.liveItems_perm hquiet).mem_iff.mp hr,
        (s.mem_itemSegments).mpr ⟨i, b, block, hb, hblock, hslice⟩⟩
    all_goals
      rw [hquiet.locals] at hlocal
      cases hlocal
  · rintro ⟨r, hr, hg⟩
    obtain ⟨i, b, block, hb, hblock, hslice⟩ := (s.mem_itemSegments).mp hg
    exact h.mem_alive ((h.liveItems_perm hquiet).mem_iff.mpr hr) hb hblock g hslice

/-- No disk block is held twice. -/
theorem WF.heldBlocks_nodup (h : WF pf s) : s.heldBlocks.Nodup := by
  unfold State.heldBlocks
  rw [List.nodup_flatMap]
  constructor
  · intro r hr
    obtain ⟨id, hfind⟩ := s.mem_indexedItems.mp hr
    have hlive := h.indexed_live hfind
    unfold List.Nodup
    rw [List.pairwise_filterMap, List.pairwise_iff_getElem]
    intro i j hi hj hlt block hblock block' hblock' heq
    subst heq
    have howner := h.owner r hlive r hlive i j _ _ (List.getElem?_eq_getElem hi)
      (List.getElem?_eq_getElem hj) block hblock hblock'
    exact absurd howner.2 (Nat.ne_of_lt hlt)
  · refine List.Pairwise.imp_of_mem ?_ h.indexedItems_nodup
    intro r r' hr hr' hne block hblock hblock'
    obtain ⟨id, hfind⟩ := s.mem_indexedItems.mp hr
    obtain ⟨id', hfind'⟩ := s.mem_indexedItems.mp hr'
    obtain ⟨b, hb, hid⟩ := List.mem_filterMap.mp hblock
    obtain ⟨b', hb', hid'⟩ := List.mem_filterMap.mp hblock'
    obtain ⟨i, hi⟩ := State.mem_blocks_iff.mp hb
    obtain ⟨i', hi'⟩ := State.mem_blocks_iff.mp hb'
    exact hne (h.owner r (h.indexed_live hfind) r' (h.indexed_live hfind') i i' b b' hi hi' block
      hid hid').1

theorem WF.liveBlocks_perm (h : WF pf s) (hquiet : Quiet s) : s.liveBlocks.Perm s.heldBlocks := by
  rw [List.perm_ext_iff_of_nodup h.diskSpace.nodup h.heldBlocks_nodup]
  intro id
  rw [s.mem_heldBlocks]
  constructor
  · intro hid
    rcases State.blockHeld_iff.mp (hquiet.collected.block id hid) with
      ⟨r, hr, i, b, hb, hblock⟩ | hlocal
    · exact ⟨r, i, b, s.mem_indexedItems.mp ((h.liveItems_perm hquiet).mem_iff.mp hr), hb, hblock⟩
    · rw [hquiet.locals] at hlocal
      cases hlocal
  · rintro ⟨r, i, b, ⟨id', hfind⟩, hb, hblock⟩
    exact h.disk_live (h.indexed_live hfind) hb hblock

/-- What is charged to memory when nothing is held. -/
theorem WF.memCharged (h : WF pf s) (hquiet : Quiet s) :
    s.memSpace.usedBytes = u64 ((s.itemsCharge pf s.indexedItems).sum +
      (s.segmentsCharge pf s.reachableSegments).sum : Nat) := by
  have hitems : (s.itemsCharge pf s.liveItems).sum = (s.itemsCharge pf s.indexedItems).sum :=
    ((h.liveItems_perm hquiet).map _).sum_eq
  have hsegments : (s.segmentsCharge pf s.liveSegments).sum =
      (s.segmentsCharge pf s.reachableSegments).sum :=
    ((h.liveSegments_perm hquiet).map _).sum_eq
  rw [u64_natCast, ← hitems, ← hsegments]
  exact h.memSpace

/-- What is charged to the disks when nothing is held. -/
theorem WF.diskCharged (h : WF pf s) (hquiet : Quiet s) :
    s.diskSpace.usedBytes = u64 (pf.flags.blockSize * s.heldBlocks.length : Nat) ∧
      ∀ id, s.diskSpace.Allocated id ↔ id ∈ s.heldBlocks := by
  constructor
  · rw [u64_natCast, ← (h.liveBlocks_perm hquiet).length_eq]
    exact h.diskSpace.used
  · intro id
    rw [h.diskSpace.allocated, (h.liveBlocks_perm hquiet).mem_iff]

/-- The charges and the blocks in use are those of the indexed items. -/
theorem resources_conserved {rt : Runtime} {options : CacheOptions} {history : List Record}
    (hrun : Run rt options history s) :
    s.memSpace.usedBytes = u64 ((s.itemsCharge rt.toPlatform s.indexedItems).sum +
        (s.segmentsCharge rt.toPlatform s.reachableSegments).sum : Nat) ∧
      s.diskSpace.usedBytes = u64 (rt.flags.blockSize * s.heldBlocks.length : Nat) ∧
      s.heldBlocks.Nodup ∧ ∀ id, s.diskSpace.Allocated id ↔ id ∈ s.heldBlocks := by
  obtain ⟨hwf, hquiet⟩ := hrun.quiet
  obtain ⟨hused, hallocated⟩ := hwf.diskCharged hquiet
  exact ⟨hwf.memCharged hquiet, hused, hwf.heldBlocks_nodup, hallocated⟩

/-- Two keys of a byte and five bytes in memory; three blocks on disk. -/
theorem resources_conserved_small : ∃ history s,
    Run (.simple .small .reliable) (.oneDir 8 16) history s ∧ s.memSpace.usedBytes = 7 ∧
      s.diskSpace.usedBytes = 12 := by
  obtain ⟨history, s, hrun, hp⟩ := Run.of_calls (.simple .small .reliable)
    (.oneDir 8 16)
    [.set [1] [1, 2, 3, 4, 5] none, .set [2] [6, 7, 8, 9] none, .get [1] none]
    (fun _ s => decide ((s.itemsCharge (.simple .small .reliable) s.indexedItems).sum +
      (s.segmentsCharge (.simple .small .reliable) s.reachableSegments).sum = 7 ∧
        s.heldBlocks.length = 3)) (by decide +kernel)
  obtain ⟨hcharges, hcount⟩ := of_decide_eq_true hp
  obtain ⟨hmem, hdisk, _⟩ := resources_conserved hrun
  have hmem' : s.memSpace.usedBytes = u64 ((s.itemsCharge (.simple .small .reliable)
      s.indexedItems).sum + (s.segmentsCharge (.simple .small .reliable)
        s.reachableSegments).sum : Nat) := hmem
  rw [hcharges] at hmem'
  rw [hcount] at hdisk
  exact ⟨history, s, hrun, hmem'.trans (u64_of_lt (by decide)), hdisk.trans (u64_of_lt (by decide))⟩

end Conservation

end StarCache
