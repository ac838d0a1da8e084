import StarCache.Content.Addressing
import StarCache.Content.Transfer
import StarCache.Sharing.Holders
import StarCache.Transition.Step

/-!
# What is shared

The invariant of the shared objects: the ledger, and that what is in memory or published on disk
is the part of the object that it stands for. The guarantee says what no action of a thread
does: nothing that has been made changes what it is, the pointers and locks of other threads
stay, and a disk block that is not yet published is left to the thread that fills it. An item
that the index has not had loses nothing, and none of its blocks is missing when the index gets
it.
-/

namespace StarCache

namespace Sharing

open Discipline

/-- Sizes for which the index arithmetic and the transfers are exact. -/
structure Sized (flags : Flags) : Prop extends Geometry flags where
  align : flags.enableOsPageCache = true ∨ flags.ioAlignUnitSize ∣ flags.sliceSize
  block_lt : flags.blockSize < 2147483648

theorem Sized.dataHyp {flags : Flags} (h : Sized flags) : DataHyp (.simple flags .reliable) :=
  dataHyp_reliable h.toGeometry h.align

/-- The objects that sets may make. -/
structure Objects where
  Has : CacheKey → IOBuf → Prop
  pos : ∀ {cacheKey value}, Has cacheKey value → 0 < value.length
  le : ∀ {cacheKey value}, Has cacheKey value → value.length ≤ 2147483648

namespace Shared

variable (flags : Flags) (s : Shared)

/-- The bytes that a block stands for. -/
def part (r : ItemRef) (i : Nat) : IOBuf := blockPart flags (s.items r).value i

/-- A byte of the disk block is that of the object. -/
def GoodAt (d : DiskRef) (p : Nat) : Prop :=
  some (diskByte flags s.files (s.diskBlocks d).id p) =
    (s.part flags (s.diskBlocks d).owner.1 (s.diskBlocks d).owner.2)[p]?

/-- The item is there, and the index has never had it. -/
structure Fresh (r : ItemRef) : Prop where
  unlinked : (s.items r).linked = false
  alive : s.itemHolders r ≠ []

/-- The slice has a segment. -/
def HasSlice (m : MemRef) (k : Nat) : Prop := ∃ g, (s.memBlocks m).slices[k]? = some (some g)

/-- The memory block has every byte of the block of the item. -/
def Full (m : MemRef) (r : ItemRef) (i : Nat) : Prop :=
  ∀ n < (s.part flags r i).length, s.HasSlice m (n / flags.sliceSize)

/-- Every byte of the block is in memory, or the block is on disk. -/
def Whole (r : ItemRef) (i : Nat) : Prop :=
  (∃ m, s.memSlot r i = some m ∧ s.Full flags m r i) ∨ ∃ d, s.diskSlot r i = some d

/-- The item is not released, and none of its blocks is missing. -/
structure Complete (r : ItemRef) : Prop where
  unreleased : (s.items r).released = false
  whole : ∀ i < s.blockCount flags r, s.Whole flags r i

/-- The slices of a memory block. -/
structure MemOk (m : MemRef) : Prop where
  owner : (s.memBlocks m).owner.1 < s.itemCount
  length : (s.memBlocks m).slices.length = flags.blockSize / flags.sliceSize
  segment : ∀ k g, (s.memBlocks m).slices[k]? = some (some g) → g < s.segmentCount ∧
    SegmentOk flags (s.part flags (s.memBlocks m).owner.1 (s.memBlocks m).owner.2)
      (s.segments g) ∧ (s.segments g).Covers flags k

end Shared

structure Contents (flags : Flags) (V : Objects) (s : Shared) : Prop where
  value : ∀ r < s.itemCount, V.Has (s.items r).cacheKey (s.items r).value
  memSlot : ∀ r i m, s.memSlot r i = some m → m < s.memCount ∧ (s.memBlocks m).owner = (r, i)
  diskSlot : ∀ r i d, s.diskSlot r i = some d →
    (s.diskBlocks d).owner = (r, i) ∧ (s.diskBlocks d).published = true
  mem : ∀ m < s.memCount, s.MemOk flags m
  owner : ∀ d, s.diskHolders d ≠ [] → (s.diskBlocks d).owner.1 < s.itemCount
  /-- A disk block that is not published is one thread's. -/
  hidden : ∀ d, (s.diskBlocks d).published = false →
    ∃ t, ∀ h ∈ s.diskHolders d, h = .thread t
  good : ∀ d, s.diskHolders d ≠ [] → (s.diskBlocks d).published = true →
    ∀ p < (s.part flags (s.diskBlocks d).owner.1 (s.diskBlocks d).owner.2).length,
      s.GoodAt flags d p
  indexed : ∀ id r, s.index id = some r → (s.items r).linked = true

structure Inv (flags : Flags) (V : Objects) (s : Shared) : Prop where
  ledger : Ledger flags s
  contents : Contents flags V s

/-- What a step does to items: the index gets none that is not complete, and before it does,
nothing of the item is lost. -/
structure Spares (flags : Flags) (s s' : Shared) : Prop where
  linked : ∀ r < s.itemCount, (s.items r).linked = true → (s'.items r).linked = true
  alive : ∀ r < s.itemCount, s'.Fresh r → s.itemHolders r ≠ []
  released : ∀ r < s.itemCount, s'.Fresh r → (s.items r).released = false →
    (s'.items r).released = false
  whole : ∀ r < s.itemCount, s'.Fresh r → ∀ i, s.Whole flags r i → s'.Whole flags r i
  complete : ∀ r < s.itemCount, (s.items r).linked = false → (s'.items r).linked = true →
    s.Complete flags r

structure Guar (flags : Flags) (t : Nat) (s s' : Shared) : Prop where
  itemCount : s.itemCount ≤ s'.itemCount
  item : ∀ r < s.itemCount, (s'.items r).cacheKey = (s.items r).cacheKey ∧
    (s'.items r).value = (s.items r).value
  memCount : s.memCount ≤ s'.memCount
  mem : ∀ m < s.memCount, (s'.memBlocks m).owner = (s.memBlocks m).owner
  slice : ∀ m < s.memCount, ∀ k, s.HasSlice m k → s'.HasSlice m k
  segmentCount : s.segmentCount ≤ s'.segmentCount
  segment : ∀ g < s.segmentCount, s'.segments g = s.segments g
  diskCount : s.diskCount ≤ s'.diskCount
  disk : ∀ d < s.diskCount, (s'.diskBlocks d).owner = (s.diskBlocks d).owner ∧
    (s'.diskBlocks d).id = (s.diskBlocks d).id ∧
    ((s.diskBlocks d).published = true → (s'.diskBlocks d).published = true)
  held : ∀ t', t' ≠ t → s'.held t' = s.held t'
  hidden : ∀ t', t' ≠ t → ∀ d, .thread t' ∈ s.diskHolders d →
    (s.diskBlocks d).published = false → (s'.diskBlocks d).published = false ∧
      ∀ p < flags.blockSize, diskByte flags s'.files (s.diskBlocks d).id p =
        diskByte flags s.files (s.diskBlocks d).id p
  spares : Spares flags s s'

/-- The threads of the calls. A thread waits only when it has locked no mutex; a check may fail,
and an item may be missing. -/
def discipline (flags : Flags) (V : Objects) : Discipline Shared Atom Input Atom.Answer where
  effect := effect flags
  inv := Inv flags V
  guar := Guar flags
  idle t s := s.held t = .none
  waits
    | t, .lock exclusive x, s => ¬ s.Admits exclusive x ∧ (s.held t).Free
    | t, .check c, s => c = false ∧ (s.held t).Free
    | t, .nullItem, s => (s.held t).Free
    | _, _, _ => False

abbrev Knowledge := Assertion Shared Atom Atom.Answer

/-! ## What stays as it is -/

section Same

variable {flags : Flags} {V : Objects} {s s' : Shared} {t : Nat}

/-- Items that are still there keep their slots, and the slots what they have. -/
theorem Spares.of_slots (hitems : ∀ r < s.itemCount, s'.items r = s.items r)
    (hslots : ∀ r < s.itemCount, (s.items r).linked = false → s'.itemHolders r ≠ [] →
      s.itemHolders r ≠ [] ∧ s'.memSlot r = s.memSlot r ∧ s'.diskSlot r = s.diskSlot r)
    (hslices : ∀ r i m, s.memSlot r i = some m → ∀ k, s.HasSlice m k → s'.HasSlice m k) :
    Spares flags s s' where
  linked r hr h := by rwa [hitems r hr]
  alive r hr h := (hslots r hr (hitems r hr ▸ h.unlinked) h.alive).1
  released r hr _ h := by rwa [hitems r hr]
  whole r hr h i hwhole := by
    obtain ⟨_, hmem, hdisk⟩ := hslots r hr (hitems r hr ▸ h.unlinked) h.alive
    unfold Shared.Whole Shared.Full Shared.part at hwhole ⊢
    rw [hmem, hdisk, hitems r hr]
    exact hwhole.imp_left fun ⟨m, hm, hall⟩ =>
      ⟨m, hm, fun n hn => hslices r i m hm _ (hall n hn)⟩
  complete r hr h h' := by
    rw [hitems r hr, h] at h'
    cases h'

theorem Spares.of_same (hitems : s'.items = s.items) (hholders : s'.itemHolders = s.itemHolders)
    (hmem : s'.memSlot = s.memSlot) (hdisk : s'.diskSlot = s.diskSlot)
    (hblocks : s'.memBlocks = s.memBlocks) : Spares flags s s' := by
  refine .of_slots (fun r _ => congrFun hitems r)
    (fun r _ _ h => ⟨hholders ▸ h, congrFun hmem r, congrFun hdisk r⟩) fun r i m _ k hk => ?_
  unfold Shared.HasSlice
  rwa [hblocks]

/-- Nothing but pointers, locks and marks has changed. -/
theorem Guar.of_eq (hitems : ∀ r, (s'.items r).cacheKey = (s.items r).cacheKey ∧
      (s'.items r).value = (s.items r).value)
    (heq : s' = { s with
      index := s'.index, items := s'.items, itemHolders := s'.itemHolders, memSlot := s'.memSlot
      diskSlot := s'.diskSlot, diskHolders := s'.diskHolders, allocated := s'.allocated
      mutexes := s'.mutexes })
    (hheld : ∀ t', t' ≠ t → s'.held t' = s.held t') (hspares : Spares flags s s') :
    Guar flags t s s' where
  itemCount := by rw [heq]
  item r _ := hitems r
  memCount := by rw [heq]
  mem m _ := by rw [heq]
  slice m _ k hk := by
    unfold Shared.HasSlice
    rwa [heq]
  segmentCount := by rw [heq]
  segment g _ := by rw [heq]
  diskCount := by rw [heq]
  disk d _ := by
    rw [heq]
    exact ⟨rfl, rfl, id⟩
  held := hheld
  hidden t' _ d _ h := by
    rw [heq]
    exact ⟨h, fun _ _ => rfl⟩
  spares := hspares

theorem Guar.refl (s : Shared) : Guar flags t s s :=
  .of_eq (fun _ => ⟨rfl, rfl⟩) rfl (fun _ _ => rfl) (.of_same rfl rfl rfl rfl rfl)

theorem Gives.guar (h : Gives s s') (hheld : ∀ t', t' ≠ t → s'.held t' = s.held t')
    (hslots : ∀ r, (s.items r).linked = false → s'.itemHolders r ≠ [] → s.itemHolders r ≠ [] ∧
      s'.memSlot r = s.memSlot r ∧ s'.diskSlot r = s.diskSlot r) : Guar flags t s s' := by
  have hitems : s'.items = s.items := by rw [h.eq]
  have hblocks : s'.memBlocks = s.memBlocks := by rw [h.eq]
  refine .of_eq (fun r => ?_) ?_ hheld (.of_slots (fun r _ => congrFun hitems r)
    (fun r _ => hslots r) fun r i m _ k hk => ?_)
  · rw [hitems]
    exact ⟨rfl, rfl⟩
  · rw [h.eq]
  · unfold Shared.HasSlice
    rwa [hblocks]

/-- Pointers may be given up. -/
theorem Contents.gives (h : Contents flags V s) (hgives : Gives s s') : Contents flags V s' := by
  have halive : ∀ d, s'.diskHolders d ≠ [] → s.diskHolders d ≠ [] := by
    intro d hd hnil
    obtain ⟨x, hx⟩ := List.exists_mem_of_ne_nil _ hd
    have := hgives.holders d x hx
    rw [hnil] at this
    cases this
  obtain ⟨heq, hindexed, hmem, hdisk, hholders⟩ := hgives
  generalize s'.index = index at heq hindexed
  generalize s'.itemHolders = itemHolders at heq
  generalize s'.memSlot = memSlot at heq hmem
  generalize s'.diskSlot = diskSlot at heq hdisk
  generalize s'.diskHolders = diskHolders at heq hholders halive
  generalize s'.allocated = allocated at heq
  subst heq
  exact ⟨h.value, fun r i m hm => h.memSlot r i m (hmem r i m hm),
    fun r i d hd => h.diskSlot r i d (hdisk r i d hd),
    fun m hm => ⟨(h.mem m hm).owner, (h.mem m hm).length, (h.mem m hm).segment⟩,
    fun d hd => h.owner d (halive d hd),
    fun d hd => (h.hidden d hd).imp fun t ht x hx => ht x (hholders d x hx),
    fun d hd => h.good d (halive d hd), fun id r hid => h.indexed id r (hindexed id r hid)⟩

end Same

end Sharing

end StarCache
