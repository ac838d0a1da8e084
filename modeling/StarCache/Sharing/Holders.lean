import StarCache.Impl.SharingCalls

/-!
# Who points to what

The pointers to items and to disk blocks are counted. The counts are exact: an item is kept by
the index and by the threads that work on it, a disk block by the slot it is published in and by
the threads, and the blocks that the space manager has handed out are those of the disk blocks
that are kept, one each.
-/

namespace StarCache

namespace Sharing

open Function

/-! ## What a thread holds -/

@[ext]
structure Held where
  items : ItemRef → Nat
  disks : DiskRef → Nat
  locks : Mutex → Nat

namespace Held

def none : Held := ⟨fun _ => 0, fun _ => 0, fun _ => 0⟩

/-- One pointer to the item more. -/
def item (h : Held) (r : ItemRef) : Held := { h with items := update h.items r (h.items r + 1) }

def disk (h : Held) (d : DiskRef) : Held := { h with disks := update h.disks d (h.disks d + 1) }

def lock (h : Held) (x : Mutex) : Held := { h with locks := update h.locks x (h.locks x + 1) }

/-- No mutex is locked. -/
def Free (h : Held) : Prop := ∀ x, h.locks x = 0

@[simp] theorem free_item {h : Held} {r : ItemRef} : (h.item r).Free ↔ h.Free := Iff.rfl

@[simp] theorem free_disk {h : Held} {d : DiskRef} : (h.disk d).Free ↔ h.Free := Iff.rfl

theorem item_items (h : Held) (r r' : ItemRef) :
    (h.item r).items r' = h.items r' + if r' = r then 1 else 0 := by
  unfold item
  dsimp only
  by_cases hr : r' = r
  · rw [hr, update_self, if_pos rfl]
  · rw [update_of_ne hr, if_neg hr, Nat.add_zero]

theorem disk_disks (h : Held) (d d' : DiskRef) :
    (h.disk d).disks d' = h.disks d' + if d' = d then 1 else 0 := by
  unfold disk
  dsimp only
  by_cases hd : d' = d
  · rw [hd, update_self, if_pos rfl]
  · rw [update_of_ne hd, if_neg hd, Nat.add_zero]

theorem lock_locks (h : Held) (x y : Mutex) :
    (h.lock x).locks y = h.locks y + if y = x then 1 else 0 := by
  unfold lock
  dsimp only
  by_cases hx : y = x
  · rw [hx, update_self, if_pos rfl]
  · rw [update_of_ne hx, if_neg hx, Nat.add_zero]

@[simp] theorem disk_items (h : Held) (d : DiskRef) : (h.disk d).items = h.items := rfl

@[simp] theorem lock_items (h : Held) (x : Mutex) : (h.lock x).items = h.items := rfl

@[simp] theorem lock_disks (h : Held) (x : Mutex) : (h.lock x).disks = h.disks := rfl

end Held

def Shared.held (s : Shared) (t : Nat) : Held where
  items r := (s.itemHolders r).count (.thread t)
  disks d := (s.diskHolders d).count (.thread t)
  locks x := (s.mutexes x).countP fun h => h.1 == t

theorem Shared.mem_itemHolders {s : Shared} {t : Nat} {r : ItemRef} :
    .thread t ∈ s.itemHolders r ↔ 0 < (s.held t).items r := List.count_pos_iff.symm

theorem Shared.mem_diskHolders {s : Shared} {t : Nat} {d : DiskRef} :
    .thread t ∈ s.diskHolders d ↔ 0 < (s.held t).disks d := List.count_pos_iff.symm

/-! ## The ledger -/

/-- The disk blocks that are kept are those of the space manager. -/
structure BlockLedger (s : Shared) : Prop where
  allocated : ∀ d, s.diskHolders d ≠ [] → s.allocated (s.diskBlocks d).id = true
  distinct : ∀ d d', s.diskHolders d ≠ [] → s.diskHolders d' ≠ [] →
    (s.diskBlocks d).id = (s.diskBlocks d').id → d = d'
  used : ∀ id, s.allocated id = true → ∃ d, s.diskHolders d ≠ [] ∧ (s.diskBlocks d).id = id
  lt : ∀ d, s.diskHolders d ≠ [] → d < s.diskCount

/-- The pointers of the slots and of the index are counted. -/
structure Counted (s : Shared) : Prop where
  slot : ∀ d r i, (s.diskHolders d).count (.block r i) = if s.diskSlot r i = some d then 1 else 0
  index : ∀ r id, (s.itemHolders r).count (.index id) = if s.index id = some r then 1 else 0
  lt : ∀ r, s.itemHolders r ≠ [] → r < s.itemCount

/-- The slots of an item are those of its blocks. -/
def SlotsIn (flags : Flags) (s : Shared) : Prop :=
  ∀ r i d, s.diskSlot r i = some d → i < s.blockCount flags r

/-- An item that is gone has given up its blocks. -/
def Buried (s : Shared) (r : ItemRef) : Prop := s.itemHolders r = [] → ∀ i, s.diskSlot r i = none

structure Ledger (flags : Flags) (s : Shared) : Prop where
  blocks : BlockLedger s
  counted : Counted s
  slotsIn : SlotsIn flags s
  buried : ∀ r, Buried s r

/-- Items may be marked. -/
theorem Ledger.setItems {flags : Flags} {s : Shared} (hs : Ledger flags s) {items : ItemRef → Item}
    (hitems : ∀ r, (items r).value = (s.items r).value) :
    Ledger flags { s with items := items } := by
  obtain ⟨hblocks, hcounted, hin, hburied⟩ := hs
  refine ⟨⟨hblocks.allocated, hblocks.distinct, hblocks.used, hblocks.lt⟩,
    ⟨hcounted.slot, hcounted.index, hcounted.lt⟩, fun r i d hd => ?_, hburied⟩
  show i < blockCountOf flags (items r).value.length
  rw [hitems]
  exact hin r i d hd

/-- Pointers are given up; the rest is as before. -/
structure Gives (s s' : Shared) : Prop where
  eq : s' = { s with
    index := s'.index, itemHolders := s'.itemHolders, memSlot := s'.memSlot
    diskSlot := s'.diskSlot, diskHolders := s'.diskHolders, allocated := s'.allocated }
  indexed : ∀ id r, s'.index id = some r → s.index id = some r
  mem : ∀ r i m, s'.memSlot r i = some m → s.memSlot r i = some m
  disk : ∀ r i d, s'.diskSlot r i = some d → s.diskSlot r i = some d
  holders : ∀ d h, h ∈ s'.diskHolders d → h ∈ s.diskHolders d

theorem Gives.refl (s : Shared) : Gives s s :=
  ⟨rfl, fun _ _ h => h, fun _ _ _ h => h, fun _ _ _ h => h, fun _ _ h => h⟩

theorem Gives.trans {s s' s'' : Shared} (h : Gives s s') (h' : Gives s' s'') : Gives s s'' := by
  refine ⟨?_, fun id r hid => h.indexed id r (h'.indexed id r hid), fun r i m hm =>
    h.mem r i m (h'.mem r i m hm), fun r i d hd => h.disk r i d (h'.disk r i d hd), fun d x hx =>
    h.holders d x (h'.holders d x hx)⟩
  rw [h'.eq, h.eq]

namespace Shared

variable {s : Shared} {flags : Flags} {r : ItemRef} {i : Nat} {d : DiskRef} {t : Nat}

/-! ## Disk blocks -/

section DropDisk

variable {h : DiskHolder}

theorem dropDisk_gives (s : Shared) (d : DiskRef) (h : DiskHolder) : Gives s (s.dropDisk d h) := by
  refine ⟨rfl, fun _ _ h => h, fun _ _ _ hm => hm, fun _ _ _ hd => hd, fun d' x hx => ?_⟩
  unfold dropDisk at hx
  dsimp only at hx
  by_cases hd : d' = d
  · subst hd
    rw [update_self] at hx
    exact List.mem_of_mem_erase hx
  · rwa [update_of_ne hd] at hx

theorem blockLedger_dropDisk (hs : BlockLedger s) (hd : s.diskHolders d ≠ []) :
    BlockLedger (s.dropDisk d h) := by
  have halive : ∀ d', (s.dropDisk d h).diskHolders d' ≠ [] → s.diskHolders d' ≠ [] := by
    intro d' h' hnil
    obtain ⟨x, hx⟩ := List.exists_mem_of_ne_nil _ h'
    have := (dropDisk_gives s d h).holders d' x hx
    rw [hnil] at this
    cases this
  refine ⟨fun d' h' => ?_, fun d₁ d₂ h₁ h₂ => hs.distinct d₁ d₂ (halive d₁ h₁) (halive d₂ h₂), ?_,
    fun d' h' => hs.lt d' (halive d' h')⟩
  · have hold := hs.allocated d' (halive d' h')
    unfold dropDisk at h' ⊢
    dsimp only at h' ⊢
    split
    next hlast =>
      have hne : d' ≠ d := by
        intro heq
        subst heq
        rw [update_self] at h'
        exact h' hlast
      rw [update_of_ne fun heq => hne (hs.distinct d' d (by rwa [update_of_ne hne] at h') hd heq)]
      exact hold
    next => exact hold
  · intro id hid
    unfold dropDisk at hid ⊢
    dsimp only at hid ⊢
    split at hid
    next hlast =>
      have hne : id ≠ (s.diskBlocks d).id := by
        intro heq
        rw [heq, update_self] at hid
        cases hid
      rw [update_of_ne hne] at hid
      obtain ⟨d', hd', heq⟩ := hs.used id hid
      refine ⟨d', ?_, heq⟩
      rwa [update_of_ne fun h => hne (by rw [← heq, h])]
    next hrest =>
      obtain ⟨d', hd', heq⟩ := hs.used id hid
      refine ⟨d', ?_, heq⟩
      by_cases hdd : d' = d
      · subst hdd
        rwa [update_self]
      · rwa [update_of_ne hdd]

theorem count_dropDisk (s : Shared) (d d' : DiskRef) (h x : DiskHolder) :
    ((s.dropDisk d h).diskHolders d').count x =
      (s.diskHolders d').count x - if d' = d ∧ x = h then 1 else 0 := by
  unfold dropDisk
  dsimp only
  by_cases hd : d' = d
  · subst hd
    rw [update_self, List.count_erase]
    by_cases hx : x = h
    · subst hx
      simp
    · rw [if_neg (fun hb => hx (eq_of_beq hb).symm), if_neg (fun hb => hx hb.2)]
  · rw [update_of_ne hd, if_neg (fun hb => hd hb.1)]
    rfl

end DropDisk

theorem count_holdDisk (s : Shared) (d d' : DiskRef) (h x : DiskHolder) :
    ((s.holdDisk d h).diskHolders d').count x =
      (s.diskHolders d').count x + if d' = d ∧ x = h then 1 else 0 := by
  unfold holdDisk
  dsimp only
  by_cases hd : d' = d
  · subst hd
    rw [update_self, List.count_cons]
    by_cases hx : x = h
    · subst hx
      simp
    · rw [if_neg (fun hb => hx (eq_of_beq hb).symm), if_neg (fun hb => hx hb.2)]
  · rw [update_of_ne hd, if_neg (fun hb => hd hb.1)]
    rfl

theorem blockLedger_holdDisk {h : DiskHolder} (hs : BlockLedger s) (hd : s.diskHolders d ≠ []) :
    BlockLedger (s.holdDisk d h) := by
  have halive : ∀ d', (s.holdDisk d h).diskHolders d' ≠ [] ↔ s.diskHolders d' ≠ [] := by
    intro d'
    unfold holdDisk
    dsimp only
    by_cases hdd : d' = d
    · subst hdd
      rw [update_self]
      exact iff_of_true (List.cons_ne_nil _ _) hd
    · rw [update_of_ne hdd]
  refine ⟨fun d' h' => hs.allocated d' ((halive d').mp h'),
    fun d₁ d₂ h₁ h₂ => hs.distinct d₁ d₂ ((halive d₁).mp h₁) ((halive d₂).mp h₂),
    fun id hid => ?_, fun d' h' => hs.lt d' ((halive d').mp h')⟩
  obtain ⟨d', hd', heq⟩ := hs.used id hid
  exact ⟨d', (halive d').mpr hd', heq⟩

/-! ## Slots -/

theorem putSlot_diskSlot (s : Shared) (r r' : ItemRef) (i i' : Nat) (x : Option DiskRef) :
    (s.putSlot r i x).diskSlot r' i' = if r' = r ∧ i' = i then x else s.diskSlot r' i' := by
  unfold putSlot
  dsimp only
  by_cases hr : r' = r
  · subst hr
    rw [update_self]
    by_cases hi : i' = i
    · subst hi
      rw [update_self, if_pos ⟨rfl, rfl⟩]
    · rw [update_of_ne hi, if_neg fun h => hi h.2]
  · rw [update_of_ne hr, if_neg fun h => hr h.1]

theorem clearDisk_none (h : s.diskSlot r i = none) : s.clearDisk r i = s := by
  unfold clearDisk
  rw [h]

theorem clearDisk_some (h : s.diskSlot r i = some d) :
    s.clearDisk r i = (s.putSlot r i none).dropDisk d (.block r i) := by
  unfold clearDisk
  rw [h]

theorem clearDisk_diskSlot (s : Shared) (r r' : ItemRef) (i i' : Nat) :
    (s.clearDisk r i).diskSlot r' i' = if r' = r ∧ i' = i then none else s.diskSlot r' i' := by
  cases h : s.diskSlot r i with
  | none =>
      rw [clearDisk_none h]
      split
      next heq => rw [heq.1, heq.2, h]
      next => rfl
  | some d =>
      rw [clearDisk_some h]
      exact putSlot_diskSlot ..

theorem clearDisk_gives (s : Shared) (r : ItemRef) (i : Nat) : Gives s (s.clearDisk r i) := by
  cases h : s.diskSlot r i with
  | none =>
      rw [clearDisk_none h]
      exact .refl s
  | some d =>
      have hput : Gives s (s.putSlot r i none) := by
        refine ⟨rfl, fun _ _ h => h, fun _ _ _ hm => hm, fun r' i' d' hd' => ?_, fun _ _ hx => hx⟩
        rw [putSlot_diskSlot] at hd'
        split at hd'
        next => cases hd'
        next => exact hd'
      rw [clearDisk_some h]
      exact hput.trans (dropDisk_gives ..)

/-- The disk block of a slot is kept. -/
theorem alive_of_slot (hs : Counted s) (h : s.diskSlot r i = some d) :
    .block r i ∈ s.diskHolders d := by
  rw [← List.count_pos_iff, hs.slot, if_pos h]
  exact Nat.one_pos

theorem clearDisk_items (s : Shared) (r : ItemRef) (i : Nat) :
    (s.clearDisk r i).itemHolders = s.itemHolders ∧ (s.clearDisk r i).index = s.index := by
  cases h : s.diskSlot r i with
  | none =>
      rw [clearDisk_none h]
      exact ⟨rfl, rfl⟩
  | some d =>
      rw [clearDisk_some h]
      exact ⟨rfl, rfl⟩

theorem clearDisk_memSlot (s : Shared) (r : ItemRef) (i : Nat) :
    (s.clearDisk r i).memSlot = s.memSlot := by
  cases h : s.diskSlot r i with
  | none => rw [clearDisk_none h]
  | some d =>
      rw [clearDisk_some h]
      rfl

theorem blockLedger_clearDisk (hs : BlockLedger s) (hc : Counted s) :
    BlockLedger (s.clearDisk r i) := by
  cases h : s.diskSlot r i with
  | none => rwa [clearDisk_none h]
  | some d =>
      rw [clearDisk_some h]
      have halive : s.diskHolders d ≠ [] := List.ne_nil_of_mem (alive_of_slot hc h)
      exact blockLedger_dropDisk ⟨hs.allocated, hs.distinct, hs.used, hs.lt⟩ halive

theorem counted_clearDisk (hs : Counted s) : Counted (s.clearDisk r i) := by
  cases h : s.diskSlot r i with
  | none => rwa [clearDisk_none h]
  | some d =>
      refine ⟨fun d' r' i' => ?_, ?_, ?_⟩
      · rw [clearDisk_diskSlot, clearDisk_some h, count_dropDisk]
        show (s.diskHolders d').count (.block r' i') - _ = _
        rw [hs.slot]
        by_cases heq : r' = r ∧ i' = i
        · obtain ⟨rfl, rfl⟩ := heq
          by_cases hd : d' = d
          · subst hd
            simp [h]
          · simp [h, Ne.symm hd]
        · have hne : ¬ (d' = d ∧ DiskHolder.block r' i' = .block r i) := by
            rintro ⟨_, hx⟩
            cases hx
            exact heq ⟨rfl, rfl⟩
          rw [if_neg heq, if_neg hne, Nat.sub_zero]
      all_goals rw [clearDisk_some h]
      · exact hs.index
      · exact hs.lt

theorem slotsIn_gives {s' : Shared} (hs : SlotsIn flags s) (h : Gives s s') : SlotsIn flags s' := by
  intro r i d hd
  have := hs r i d (h.disk r i d hd)
  rwa [h.eq]

theorem held_clearDisk (s : Shared) (r : ItemRef) (i t : Nat) :
    (s.clearDisk r i).held t = s.held t := by
  cases h : s.diskSlot r i with
  | none => rw [clearDisk_none h]
  | some d =>
      rw [clearDisk_some h]
      ext x
      · rfl
      · show ((Shared.dropDisk _ d _).diskHolders x).count _ = _
        rw [count_dropDisk, if_neg fun hx => by cases hx.2]
        rfl
      · rfl

/-- Disk blocks are given up by slots. -/
structure Clears (s s' : Shared) : Prop where
  gives : Gives s s'
  ledger : BlockLedger s → Counted s → BlockLedger s' ∧ Counted s'
  itemHolders : s'.itemHolders = s.itemHolders
  index : s'.index = s.index
  held : ∀ t, s'.held t = s.held t

theorem Clears.refl (s : Shared) : Clears s s :=
  ⟨.refl s, fun hb hc => ⟨hb, hc⟩, rfl, rfl, fun _ => rfl⟩

theorem Clears.trans {s s' s'' : Shared} (h : Clears s s') (h' : Clears s' s'') :
    Clears s s'' := by
  refine ⟨h.gives.trans h'.gives, fun hb hc => ?_, h'.itemHolders.trans h.itemHolders,
    h'.index.trans h.index, fun t => (h'.held t).trans (h.held t)⟩
  obtain ⟨hb', hc'⟩ := h.ledger hb hc
  exact h'.ledger hb' hc'

theorem clearDisk_clears (s : Shared) (r : ItemRef) (i : Nat) : Clears s (s.clearDisk r i) :=
  ⟨clearDisk_gives s r i, fun hb hc => ⟨blockLedger_clearDisk hb hc, counted_clearDisk hc⟩,
    (clearDisk_items s r i).1, (clearDisk_items s r i).2, held_clearDisk s r i⟩

/-- Several blocks of an item give up what they have. -/
theorem foldl_clearDisk (r : ItemRef) : ∀ (is : List Nat) (s : Shared),
    Clears s (is.foldl (fun s i => s.clearDisk r i) s) ∧
      (is.foldl (fun s i => s.clearDisk r i) s).memSlot = s.memSlot ∧
      ∀ r' i', (is.foldl (fun s i => s.clearDisk r i) s).diskSlot r' i' =
        if r' = r ∧ i' ∈ is then none else s.diskSlot r' i'
  | [], s => ⟨.refl s, rfl, fun r' i' => by rw [if_neg (fun h => List.not_mem_nil h.2)]; rfl⟩
  | i :: rest, s => by
      obtain ⟨hclears, hmem, hslots⟩ := foldl_clearDisk r rest (s.clearDisk r i)
      refine ⟨(clearDisk_clears s r i).trans hclears, hmem.trans (clearDisk_memSlot s r i),
        fun r' i' => ?_⟩
      rw [List.foldl_cons, hslots, clearDisk_diskSlot]
      by_cases hr : r' = r
      · by_cases hi : i' = i
        · simp [hr, hi]
        · simp [hr, hi]
      · simp [hr]

theorem destroy_clears (flags : Flags) (s : Shared) (r : ItemRef) :
    Clears s (s.destroy flags r) := by
  obtain ⟨hclears, _, _⟩ := foldl_clearDisk r (List.range (s.blockCount flags r)) s
  refine hclears.trans ⟨⟨rfl, fun _ _ h => h, fun r' i m hm => ?_, fun _ _ _ h => h,
      fun _ _ h => h⟩,
    fun hb hc => ⟨⟨hb.allocated, hb.distinct, hb.used, hb.lt⟩, ⟨hc.slot, hc.index, hc.lt⟩⟩,
    rfl, rfl, fun _ => rfl⟩
  unfold destroy at hm
  dsimp only at hm
  by_cases hr : r' = r
  · subst hr
    rw [update_self] at hm
    cases hm
  · rwa [update_of_ne hr] at hm

/-- A destroyed item has no disk blocks. -/
theorem destroy_diskSlot (hin : SlotsIn flags s) : (s.destroy flags r).diskSlot r i = none := by
  obtain ⟨_, _, hslots⟩ := foldl_clearDisk r (List.range (s.blockCount flags r)) s
  show (List.foldl _ s _).diskSlot r i = none
  rw [hslots]
  split
  next => rfl
  next hout =>
    cases h : s.diskSlot r i with
    | none => rfl
    | some d => exact absurd ⟨rfl, List.mem_range.mpr (hin r i d h)⟩ hout

/-- The other items have what they had. -/
theorem destroy_other {r' : ItemRef} (hr : r' ≠ r) :
    (s.destroy flags r).memSlot r' = s.memSlot r' ∧
      (s.destroy flags r).diskSlot r' = s.diskSlot r' := by
  obtain ⟨_, hmem, hslots⟩ := foldl_clearDisk r (List.range (s.blockCount flags r)) s
  constructor
  · show update (List.foldl _ s _).memSlot r _ r' = _
    rw [update_of_ne hr, hmem]
  · funext i
    show (List.foldl _ s _).diskSlot r' i = _
    rw [hslots, if_neg fun h => hr h.1]

/-! ## Items -/

section DropItem

variable {h : ItemHolder}

/-- The pointer is taken out; the item is still there. -/
def forget (s : Shared) (r : ItemRef) (h : ItemHolder) : Shared :=
  { s with itemHolders := update s.itemHolders r ((s.itemHolders r).erase h) }

@[simp] theorem forget_self (s : Shared) (r : ItemRef) (h : ItemHolder) :
    (s.forget r h).itemHolders r = (s.itemHolders r).erase h := update_self ..

theorem forget_of_ne (s : Shared) {r r' : ItemRef} (h : ItemHolder) (hr : r' ≠ r) :
    (s.forget r h).itemHolders r' = s.itemHolders r' := update_of_ne hr ..

theorem dropItem_eq (s : Shared) (r : ItemRef) (h : ItemHolder) : s.dropItem flags r h =
    if (s.itemHolders r).erase h = [] then (s.forget r h).destroy flags r else s.forget r h := rfl

theorem dropItem_clears (s : Shared) (r : ItemRef) (h : ItemHolder) :
    Clears (s.forget r h) (s.dropItem flags r h) := by
  rw [dropItem_eq]
  split
  next => exact destroy_clears ..
  next => exact .refl _

theorem forget_gives (s : Shared) (r : ItemRef) (h : ItemHolder) : Gives s (s.forget r h) :=
  ⟨rfl, fun _ _ h => h, fun _ _ _ h => h, fun _ _ _ h => h, fun _ _ h => h⟩

theorem dropItem_gives (s : Shared) (r : ItemRef) (h : ItemHolder) :
    Gives s (s.dropItem flags r h) :=
  (forget_gives s r h).trans (dropItem_clears s r h).gives

theorem count_forget (s : Shared) (r r' : ItemRef) (h x : ItemHolder) :
    ((s.forget r h).itemHolders r').count x =
      (s.itemHolders r').count x - if r' = r ∧ x = h then 1 else 0 := by
  by_cases hr : r' = r
  · subst hr
    rw [forget_self, List.count_erase]
    by_cases hx : x = h
    · subst hx
      simp
    · rw [if_neg (fun hb => hx (eq_of_beq hb).symm), if_neg (fun hb => hx hb.2)]
  · rw [forget_of_ne s h hr, if_neg (fun hb => hr hb.1)]
    rfl

theorem forget_alive {r' : ItemRef} (h' : (s.forget r h).itemHolders r' ≠ []) :
    s.itemHolders r' ≠ [] := by
  intro hnil
  apply h'
  by_cases hr : r' = r
  · subst hr
    rw [forget_self, hnil, List.erase_nil]
  · rwa [forget_of_ne s h hr]

/-- An item that is still there has what it had. -/
theorem dropItem_alive {r' : ItemRef} (h' : (s.dropItem flags r h).itemHolders r' ≠ []) :
    s.itemHolders r' ≠ [] ∧ (s.dropItem flags r h).memSlot r' = s.memSlot r' ∧
      (s.dropItem flags r h).diskSlot r' = s.diskSlot r' := by
  rw [(dropItem_clears s r h).itemHolders] at h'
  refine ⟨forget_alive h', ?_⟩
  rw [dropItem_eq]
  split
  next hnil =>
    have hr : r' ≠ r := by
      rintro rfl
      exact h' ((forget_self ..).trans hnil)
    exact destroy_other hr
  next => exact ⟨rfl, rfl⟩

/-- An item is given up: what is left to show is that the pointers are counted. -/
theorem ledger_dropItem (hs : BlockLedger s) (hin : SlotsIn flags s)
    (hburied : ∀ r', Buried s r') (hc : Counted (s.forget r h)) :
    Ledger flags (s.dropItem flags r h) := by
  have hclears : Clears (s.forget r h) (s.dropItem flags r h) := dropItem_clears s r h
  obtain ⟨hb', hc'⟩ := hclears.ledger ⟨hs.allocated, hs.distinct, hs.used, hs.lt⟩ hc
  refine ⟨hb', hc', slotsIn_gives hin (dropItem_gives s r h), fun r' hnil i => ?_⟩
  by_cases hr : r' = r
  · subst hr
    rw [hclears.itemHolders, forget_self] at hnil
    rw [dropItem_eq, if_pos hnil]
    exact destroy_diskSlot hin
  · rw [hclears.itemHolders, forget_of_ne s h hr] at hnil
    cases hslot : (s.dropItem flags r h).diskSlot r' i with
    | none => rfl
    | some d =>
        have hgives : Gives s (s.dropItem flags r h) := dropItem_gives s r h
        have hgone := hgives.disk r' i d hslot
        rw [hburied r' hnil i] at hgone
        cases hgone

end DropItem

theorem ledger_dropItem_thread (hs : Ledger flags s) :
    Ledger flags (s.dropItem flags r (.thread t)) := by
  refine ledger_dropItem hs.blocks hs.slotsIn hs.buried ⟨hs.counted.slot, fun r' id => ?_, ?_⟩
  · rw [count_forget, if_neg fun hx => by cases hx.2]
    exact hs.counted.index r' id
  · exact fun r' h' => hs.counted.lt r' (forget_alive h')

theorem held_dropItem_thread (s : Shared) (r : ItemRef) (t t' : Nat) :
    (s.dropItem flags r (.thread t)).held t' = { s.held t' with
      items := fun r' => (s.held t').items r' - if r' = r ∧ t' = t then 1 else 0 } := by
  rw [(dropItem_clears s r _).held]
  ext r'
  · show ((s.forget r (.thread t)).itemHolders r').count _ = _
    rw [count_forget]
    simp [held]
  · rfl
  · rfl

theorem held_dropItem_index (s : Shared) (r : ItemRef) (id : CacheId) (t : Nat) :
    (s.dropItem flags r (.index id)).held t = s.held t := by
  rw [(dropItem_clears s r _).held]
  ext r'
  · show ((s.forget r (.index id)).itemHolders r').count _ = _
    rw [count_forget, if_neg fun hx => by cases hx.2]
    rfl
  · rfl
  · rfl

/-! ## The index -/

/-- What the index has is there. -/
theorem indexed_alive {id : CacheId} (hs : Counted s) (h : s.index id = some r) :
    s.itemHolders r ≠ [] := by
  apply List.ne_nil_of_mem (a := ItemHolder.index id)
  rw [← List.count_pos_iff, hs.index, if_pos h]
  exact Nat.one_pos

theorem putIndex_index (s : Shared) (id id' : CacheId) (x : Option ItemRef) :
    (s.putIndex id x).index id' = if id' = id then x else s.index id' := by
  unfold putIndex
  dsimp only
  by_cases hid : id' = id
  · rw [hid, update_self, if_pos rfl]
  · rw [update_of_ne hid, if_neg hid]

theorem clearIndex_none {id : CacheId} (h : s.index id = none) : s.clearIndex flags id = s := by
  unfold clearIndex
  rw [h]

theorem clearIndex_some {id : CacheId} (h : s.index id = some r) :
    s.clearIndex flags id = (s.putIndex id none).dropItem flags r (.index id) := by
  unfold clearIndex
  rw [h]

theorem clearIndex_index (s : Shared) (id id' : CacheId) :
    (s.clearIndex flags id).index id' = if id' = id then none else s.index id' := by
  cases h : s.index id with
  | none =>
      rw [clearIndex_none h]
      split
      next heq => rw [heq, h]
      next => rfl
  | some r =>
      rw [clearIndex_some h, (dropItem_clears _ r _).index]
      show update s.index id none id' = _
      by_cases hid : id' = id
      · rw [hid, update_self, if_pos rfl]
      · rw [update_of_ne hid, if_neg hid]

theorem clearIndex_gives (s : Shared) (id : CacheId) : Gives s (s.clearIndex flags id) := by
  cases h : s.index id with
  | none =>
      rw [clearIndex_none h]
      exact .refl s
  | some r =>
      rw [clearIndex_some h]
      have hput : Gives s (s.putIndex id none) := by
        refine ⟨rfl, fun id' r' hid' => ?_, fun _ _ _ h => h, fun _ _ _ h => h, fun _ _ h => h⟩
        rw [putIndex_index] at hid'
        split at hid'
        next => cases hid'
        next => exact hid'
      exact hput.trans (dropItem_gives ..)

theorem clearIndex_alive {id : CacheId} {r' : ItemRef}
    (h' : (s.clearIndex flags id).itemHolders r' ≠ []) :
    s.itemHolders r' ≠ [] ∧ (s.clearIndex flags id).memSlot r' = s.memSlot r' ∧
      (s.clearIndex flags id).diskSlot r' = s.diskSlot r' := by
  cases h : s.index id with
  | none =>
      rw [clearIndex_none h] at h' ⊢
      exact ⟨h', rfl, rfl⟩
  | some r =>
      rw [clearIndex_some h] at h' ⊢
      exact dropItem_alive h'

theorem held_clearIndex (s : Shared) (id : CacheId) (t : Nat) :
    (s.clearIndex flags id).held t = s.held t := by
  cases h : s.index id with
  | none => rw [clearIndex_none h]
  | some r =>
      rw [clearIndex_some h, held_dropItem_index]
      rfl

theorem ledger_clearIndex (id : CacheId) (hs : Ledger flags s) :
    Ledger flags (s.clearIndex flags id) := by
  cases h : s.index id with
  | none => rwa [clearIndex_none h]
  | some r =>
      rw [clearIndex_some h]
      have hblocks := hs.blocks
      refine ledger_dropItem ⟨hblocks.allocated, hblocks.distinct, hblocks.used, hblocks.lt⟩
        hs.slotsIn hs.buried ⟨hs.counted.slot, fun r' id' => ?_, ?_⟩
      · rw [count_forget]
        show (s.itemHolders r').count (.index id') - _ =
          if update s.index id none id' = some r' then 1 else 0
        rw [hs.counted.index]
        by_cases hid : id' = id
        · subst hid
          by_cases hr : r' = r
          · simp [h, hr]
          · simp [h, hr, Ne.symm hr]
        · have hne : ¬ (r' = r ∧ ItemHolder.index id' = .index id) := fun hx =>
            hid (ItemHolder.index.inj hx.2)
          rw [update_of_ne hid, if_neg hne, Nat.sub_zero]
      · exact fun r' h' => hs.counted.lt r' (forget_alive (s := s.putIndex id none) h')

theorem count_holdItem (s : Shared) (r r' : ItemRef) (h x : ItemHolder) :
    ((s.holdItem r h).itemHolders r').count x =
      (s.itemHolders r').count x + if r' = r ∧ x = h then 1 else 0 := by
  unfold holdItem
  dsimp only
  by_cases hr : r' = r
  · subst hr
    rw [update_self, List.count_cons]
    by_cases hx : x = h
    · subst hx
      simp
    · rw [if_neg (fun hb => hx (eq_of_beq hb).symm), if_neg (fun hb => hx hb.2)]
  · rw [update_of_ne hr, if_neg (fun hb => hr hb.1)]
    rfl

theorem holdItem_alive {h : ItemHolder} (hr : s.itemHolders r ≠ []) (r' : ItemRef) :
    (s.holdItem r h).itemHolders r' = [] ↔ s.itemHolders r' = [] := by
  unfold holdItem
  dsimp only
  by_cases hr' : r' = r
  · subst hr'
    rw [update_self]
    exact iff_of_false (List.cons_ne_nil _ _) hr
  · rw [update_of_ne hr']

theorem mark_item (s : Shared) (r r' : ItemRef) :
    ((s.mark r).items r').cacheKey = (s.items r').cacheKey ∧
      ((s.mark r).items r').value = (s.items r').value := by
  show (update s.items r _ r').cacheKey = _ ∧ (update s.items r _ r').value = _
  by_cases hr : r' = r
  · rw [hr, update_self]
    exact ⟨rfl, rfl⟩
  · rw [update_of_ne hr]
    exact ⟨rfl, rfl⟩

/-- An item that a thread keeps is put into the index. -/
theorem ledger_link {id : CacheId} (hs : Ledger flags s) (hr : .thread t ∈ s.itemHolders r) :
    Ledger flags (s.link flags id r) := by
  obtain ⟨hblocks, hcounted, hin, hburied⟩ := ledger_clearIndex id hs
  have hkept : (s.clearIndex flags id).itemHolders r ≠ [] := by
    apply List.ne_nil_of_mem (a := ItemHolder.thread t)
    rw [mem_itemHolders, held_clearIndex, ← mem_itemHolders]
    exact hr
  have halive := holdItem_alive (h := .index id) hkept
  refine Ledger.setItems (s := ((s.clearIndex flags id).holdItem r (.index id)).putIndex id (some r))
    ⟨⟨hblocks.allocated, hblocks.distinct, hblocks.used, hblocks.lt⟩,
    ⟨hcounted.slot, fun r' id' => ?_, fun r' h' => hcounted.lt r' fun hnil => h' ?_⟩, hin,
    fun r' hnil => hburied r' ((halive r').mp hnil)⟩ fun r' => (mark_item _ r r').2
  · show ((holdItem _ r _).itemHolders r').count _ =
      if (putIndex _ id (some r)).index id' = some r' then 1 else 0
    rw [putIndex_index, count_holdItem, hcounted.index, clearIndex_index]
    by_cases hid : id' = id
    · subst hid
      by_cases hr' : r' = r
      · simp [hr']
      · simp [hr', Ne.symm hr']
    · have hne : ¬ (r' = r ∧ ItemHolder.index id' = .index id) := fun hx =>
        hid (ItemHolder.index.inj hx.2)
      have hsame : ((s.clearIndex flags id).holdItem r (.index id)).index id' = s.index id' :=
        (clearIndex_index s id id').trans (if_neg hid)
      rw [if_neg hid, if_neg hne, if_neg hid, hsame, Nat.add_zero]
  · exact (halive r').mpr hnil

theorem held_holdItem (s : Shared) (r : ItemRef) (h : ItemHolder) (t : Nat) :
    (s.holdItem r h).held t = if h = .thread t then (s.held t).item r else s.held t := by
  split
  next heq =>
    subst heq
    ext r'
    · show ((s.holdItem r _).itemHolders r').count _ = _
      rw [count_holdItem, Held.item_items]
      simp [held]
    · rfl
    · rfl
  next hne =>
    ext r'
    · show ((s.holdItem r _).itemHolders r').count _ = _
      rw [count_holdItem, if_neg fun hx => hne hx.2.symm]
      rfl
    · rfl
    · rfl

theorem held_link (s : Shared) (id : CacheId) (r : ItemRef) (t : Nat) :
    (s.link flags id r).held t = s.held t := by
  show ((s.clearIndex flags id).holdItem r (.index id)).held t = _
  rw [held_holdItem, if_neg (by simp), held_clearIndex]

theorem ledger_holdItem (hs : Ledger flags s) (hr : s.itemHolders r ≠ []) :
    Ledger flags (s.holdItem r (.thread t)) := by
  have halive := holdItem_alive (h := .thread t) hr
  obtain ⟨hblocks, hcounted, hin, hburied⟩ := hs
  refine ⟨⟨hblocks.allocated, hblocks.distinct, hblocks.used, hblocks.lt⟩,
    ⟨hcounted.slot, fun r' id => ?_, fun r' h' => hcounted.lt r' fun hnil => h' ?_⟩, hin,
    fun r' hnil => hburied r' ((halive r').mp hnil)⟩
  · rw [count_holdItem, if_neg fun hx => by cases hx.2]
    exact hcounted.index r' id
  · exact (halive r').mpr hnil

/-! ## Pointers of threads to disk blocks -/

theorem held_holdDisk (s : Shared) (d : DiskRef) (h : DiskHolder) (t : Nat) :
    (s.holdDisk d h).held t = if h = .thread t then (s.held t).disk d else s.held t := by
  split
  next heq =>
    subst heq
    ext d'
    · rfl
    · show ((s.holdDisk d _).diskHolders d').count _ = _
      rw [count_holdDisk, Held.disk_disks]
      simp [held]
    · rfl
  next hne =>
    ext d'
    · rfl
    · show ((s.holdDisk d _).diskHolders d').count _ = _
      rw [count_holdDisk, if_neg fun hx => hne hx.2.symm]
      rfl
    · rfl

theorem held_dropDisk_thread (s : Shared) (d : DiskRef) (t t' : Nat) :
    (s.dropDisk d (.thread t)).held t' = { s.held t' with
      disks := fun d' => (s.held t').disks d' - if d' = d ∧ t' = t then 1 else 0 } := by
  ext d'
  · rfl
  · show ((s.dropDisk d _).diskHolders d').count _ = _
    rw [count_dropDisk]
    simp [held]
  · rfl

theorem ledger_holdDisk (hs : Ledger flags s) (hd : s.diskHolders d ≠ []) :
    Ledger flags (s.holdDisk d (.thread t)) := by
  refine ⟨blockLedger_holdDisk hs.blocks hd, ⟨fun d' r i => ?_, hs.counted.index, hs.counted.lt⟩,
    hs.slotsIn, hs.buried⟩
  rw [count_holdDisk, if_neg fun hx => by cases hx.2]
  exact hs.counted.slot d' r i

theorem ledger_dropDisk (hs : Ledger flags s) (hd : s.diskHolders d ≠ []) :
    Ledger flags (s.dropDisk d (.thread t)) := by
  refine ⟨blockLedger_dropDisk hs.blocks hd, ⟨fun d' r i => ?_, hs.counted.index, hs.counted.lt⟩,
    hs.slotsIn, hs.buried⟩
  rw [count_dropDisk, if_neg fun hx => by cases hx.2]
  exact hs.counted.slot d' r i

theorem ledger_clearDisk (hs : Ledger flags s) : Ledger flags (s.clearDisk r i) := by
  have hclears := clearDisk_clears s r i
  obtain ⟨hblocks, hcounted⟩ := hclears.ledger hs.blocks hs.counted
  refine ⟨hblocks, hcounted, slotsIn_gives hs.slotsIn hclears.gives, fun r' hnil i' => ?_⟩
  rw [hclears.itemHolders] at hnil
  rw [clearDisk_diskSlot, hs.buried r' hnil i', ite_self]

/-! ## Publication -/

theorem publish_diskBlocks (s : Shared) (r : ItemRef) (i : Nat) (d d' : DiskRef) :
    (s.publish r i d).diskBlocks d' =
      if d' = d then { s.diskBlocks d with published := true } else s.diskBlocks d' := by
  have hsame : (s.clearDisk r i).diskBlocks = s.diskBlocks := by rw [(clearDisk_gives s r i).eq]
  unfold publish putSlot holdDisk
  dsimp only
  rw [hsame]
  by_cases hd : d' = d
  · rw [hd, update_self, if_pos rfl]
  · rw [update_of_ne hd, if_neg hd]

/-- A disk block that a thread keeps is put into a slot. -/
theorem ledger_publish (hs : Ledger flags s) (hr : s.HasBlock flags r i)
    (hd : .thread t ∈ s.diskHolders d) : Ledger flags (s.publish r i d) := by
  have hclears := clearDisk_clears s r i
  obtain ⟨hblocks, hcounted, hin, hburied⟩ := ledger_clearDisk (r := r) (i := i) hs
  have hkept : (s.clearDisk r i).diskHolders d ≠ [] := by
    apply List.ne_nil_of_mem (a := DiskHolder.thread t)
    rw [mem_diskHolders, hclears.held, ← mem_diskHolders]
    exact hd
  have hhold := blockLedger_holdDisk (h := .block r i) hblocks hkept
  have hsame : ∀ d', ((s.publish r i d).diskBlocks d').id =
      ((s.clearDisk r i).diskBlocks d').id := by
    intro d'
    rw [publish_diskBlocks, hclears.gives.eq]
    split
    next hdd => rw [hdd]
    next => rfl
  have hslot : ∀ r' i', (s.publish r i d).diskSlot r' i' =
      if r' = r ∧ i' = i then some d else (s.clearDisk r i).diskSlot r' i' := by
    intro r' i'
    exact putSlot_diskSlot _ r r' i i' _
  have hsize : (s.publish r i d).blockCount flags = s.blockCount flags := by
    show (s.clearDisk r i).blockCount flags = _
    rw [hclears.gives.eq]
    rfl
  refine ⟨⟨fun d' h' => ?_, fun d₁ d₂ h₁ h₂ => ?_, fun id hid => ?_, hhold.lt⟩,
    ⟨fun d' r' i' => ?_, hcounted.index, hcounted.lt⟩, fun r' i' d' hd' => ?_, fun r' hnil i' => ?_⟩
  · rw [hsame]
    exact hhold.allocated d' h'
  · rw [hsame, hsame]
    exact hhold.distinct d₁ d₂ h₁ h₂
  · obtain ⟨d', hd', heq⟩ := hhold.used id hid
    exact ⟨d', hd', (hsame d').trans heq⟩
  · rw [hslot]
    show ((holdDisk _ d _).diskHolders d').count _ = _
    rw [count_holdDisk, hcounted.slot, clearDisk_diskSlot]
    by_cases heq : r' = r ∧ i' = i
    · obtain ⟨rfl, rfl⟩ := heq
      by_cases hdd : d' = d
      · simp [hdd]
      · simp [hdd, Ne.symm hdd]
    · have hne : ¬ (d' = d ∧ DiskHolder.block r' i' = .block r i) := by
        rintro ⟨_, hx⟩
        cases hx
        exact heq ⟨rfl, rfl⟩
      rw [if_neg heq, if_neg hne, if_neg heq]
      rfl
  · rw [hsize]
    rw [hslot] at hd'
    split at hd'
    next heq =>
      rw [heq.1, heq.2]
      exact hr.2
    next => exact hs.slotsIn r' i' d' (hclears.gives.disk r' i' d' hd')
  · have hne : r' ≠ r := by
      rintro rfl
      have hnil : (s.clearDisk r' i).itemHolders r' = [] := hnil
      rw [hclears.itemHolders] at hnil
      exact hr.1 hnil
    rw [hslot, if_neg fun h => hne h.1]
    exact hburied r' hnil i'

theorem held_publish (s : Shared) (r : ItemRef) (i : Nat) (d : DiskRef) (t : Nat) :
    (s.publish r i d).held t = s.held t := by
  show ((s.clearDisk r i).holdDisk d (.block r i)).held t = _
  rw [held_holdDisk, if_neg (by simp), held_clearDisk]

/-! ## New objects -/

theorem fresh_item (hs : Ledger flags s) : s.itemHolders s.itemCount = [] := by
  by_contra h
  exact Nat.lt_irrefl _ (hs.counted.lt _ h)

theorem fresh_disk (hs : Ledger flags s) : s.diskHolders s.diskCount = [] := by
  by_contra h
  exact Nat.lt_irrefl _ (hs.blocks.lt _ h)

theorem addItem_holders (s : Shared) (t : Nat) (item : Item) (r' : ItemRef) :
    (s.addItem t item).itemHolders r' =
      if r' = s.itemCount then [.thread t] else s.itemHolders r' := by
  unfold addItem
  dsimp only
  by_cases hr : r' = s.itemCount
  · rw [hr, update_self, if_pos rfl]
  · rw [update_of_ne hr, if_neg hr]

theorem ledger_addItem (hs : Ledger flags s) (item : Item) : Ledger flags (s.addItem t item) := by
  have hfresh := fresh_item hs
  obtain ⟨hblocks, hcounted, hin, hburied⟩ := hs
  have hslots := hburied s.itemCount hfresh
  refine ⟨⟨hblocks.allocated, hblocks.distinct, hblocks.used, hblocks.lt⟩,
    ⟨hcounted.slot, fun r' id => ?_, fun r' h' => ?_⟩, fun r' i d hd => ?_, fun r' hnil i => ?_⟩
  · have hold := hcounted.index r' id
    by_cases hr : r' = s.itemCount
    · subst hr
      rw [hfresh] at hold
      rw [addItem_holders, if_pos rfl]
      exact hold
    · rw [addItem_holders, if_neg hr]
      exact hold
  · show r' < s.itemCount + 1
    rw [addItem_holders] at h'
    split at h'
    next hr => exact hr ▸ Nat.lt_succ_self _
    next => exact Nat.lt_succ_of_lt (hcounted.lt r' h')
  · have hold : s.diskSlot r' i = some d := hd
    have hr : r' ≠ s.itemCount := by
      rintro rfl
      rw [hslots i] at hold
      cases hold
    show i < blockCountOf flags (update s.items s.itemCount item r').size
    rw [update_of_ne hr]
    exact hin r' i d hold
  · rw [addItem_holders] at hnil
    split at hnil
    next => cases hnil
    next => exact hburied r' hnil i

theorem held_addItem (hs : Ledger flags s) (item : Item) (t' : Nat) :
    (s.addItem t item).held t' = if t' = t then (s.held t').item s.itemCount else s.held t' := by
  have hfresh := fresh_item hs
  split
  next ht =>
    subst ht
    ext r'
    · show ((s.addItem t' item).itemHolders r').count _ = _
      rw [addItem_holders, Held.item_items]
      split
      next hr => simp [held, hr, hfresh]
      next => rfl
    · rfl
    · rfl
  next ht =>
    ext r'
    · show ((s.addItem t item).itemHolders r').count _ = _
      rw [addItem_holders]
      split
      next hr =>
        have hne : ItemHolder.thread t ≠ .thread t' := fun h => ht (ItemHolder.thread.inj h).symm
        simp [held, hr, hfresh, hne]
      next => rfl
    · rfl
    · rfl

theorem addDisk_holders (s : Shared) (t : Nat) (block : DiskBlock) (d' : DiskRef) :
    (s.addDisk t block).diskHolders d' =
      if d' = s.diskCount then [.thread t] else s.diskHolders d' := by
  unfold addDisk
  dsimp only
  by_cases hd : d' = s.diskCount
  · rw [hd, update_self, if_pos rfl]
  · rw [update_of_ne hd, if_neg hd]

theorem addDisk_diskBlocks (s : Shared) (t : Nat) (block : DiskBlock) (d' : DiskRef) :
    (s.addDisk t block).diskBlocks d' =
      if d' = s.diskCount then block else s.diskBlocks d' := by
  unfold addDisk
  dsimp only
  by_cases hd : d' = s.diskCount
  · rw [hd, update_self, if_pos rfl]
  · rw [update_of_ne hd, if_neg hd]

theorem ledger_addDisk (hs : Ledger flags s) {block : DiskBlock}
    (hid : s.allocated block.id = false) : Ledger flags (s.addDisk t block) := by
  have hfresh := fresh_disk hs
  obtain ⟨hblocks, hcounted, hin, hburied⟩ := hs
  have hne : ∀ d', s.diskHolders d' ≠ [] → (s.diskBlocks d').id ≠ block.id := by
    intro d' h' heq
    have := hblocks.allocated d' h'
    rw [heq, hid] at this
    cases this
  have hold : ∀ d', d' ≠ s.diskCount → (s.addDisk t block).diskHolders d' ≠ [] →
      s.diskHolders d' ≠ [] := by
    intro d' hd h'
    rwa [addDisk_holders, if_neg hd] at h'
  have hallocated : ∀ id, (s.addDisk t block).allocated id =
      if id = block.id then true else s.allocated id := by
    intro id
    unfold addDisk
    dsimp only
    by_cases heq : id = block.id
    · rw [heq, update_self, if_pos rfl]
    · rw [update_of_ne heq, if_neg heq]
  refine ⟨⟨fun d' h' => ?_, fun d₁ d₂ h₁ h₂ heq => ?_, fun id hused => ?_, fun d' h' => ?_⟩,
    ⟨fun d' r' i' => ?_, hcounted.index, hcounted.lt⟩, hin, hburied⟩
  · rw [addDisk_diskBlocks, hallocated]
    by_cases hd : d' = s.diskCount
    · rw [if_pos hd, if_pos rfl]
    · rw [if_neg hd, if_neg (hne d' (hold d' hd h'))]
      exact hblocks.allocated d' (hold d' hd h')
  · rw [addDisk_diskBlocks, addDisk_diskBlocks] at heq
    by_cases hd₁ : d₁ = s.diskCount
    · by_cases hd₂ : d₂ = s.diskCount
      · rw [hd₁, hd₂]
      · rw [if_pos hd₁, if_neg hd₂] at heq
        exact absurd heq.symm (hne d₂ (hold d₂ hd₂ h₂))
    · by_cases hd₂ : d₂ = s.diskCount
      · rw [if_neg hd₁, if_pos hd₂] at heq
        exact absurd heq (hne d₁ (hold d₁ hd₁ h₁))
      · rw [if_neg hd₁, if_neg hd₂] at heq
        exact hblocks.distinct d₁ d₂ (hold d₁ hd₁ h₁) (hold d₂ hd₂ h₂) heq
  · rw [hallocated] at hused
    split at hused
    next heq =>
      refine ⟨s.diskCount, ?_, ?_⟩
      · rw [addDisk_holders, if_pos rfl]
        exact List.cons_ne_nil _ _
      · rw [addDisk_diskBlocks, if_pos rfl, heq]
    next =>
      obtain ⟨d', hd', heq⟩ := hblocks.used id hused
      have hlt : d' ≠ s.diskCount := Nat.ne_of_lt (hblocks.lt d' hd')
      refine ⟨d', ?_, ?_⟩
      · rwa [addDisk_holders, if_neg hlt]
      · rwa [addDisk_diskBlocks, if_neg hlt]
  · show d' < s.diskCount + 1
    by_cases hd : d' = s.diskCount
    · exact hd ▸ Nat.lt_succ_self _
    · exact Nat.lt_succ_of_lt (hblocks.lt d' (hold d' hd h'))
  · have hcount := hcounted.slot d' r' i'
    rw [addDisk_holders]
    split
    next hd =>
      subst hd
      rw [hfresh] at hcount
      exact hcount
    next => exact hcount

theorem held_addDisk (hs : Ledger flags s) (block : DiskBlock) (t' : Nat) :
    (s.addDisk t block).held t' = if t' = t then (s.held t').disk s.diskCount else s.held t' := by
  have hfresh := fresh_disk hs
  split
  next ht =>
    subst ht
    ext d'
    · rfl
    · show ((s.addDisk t' block).diskHolders d').count _ = _
      rw [addDisk_holders, Held.disk_disks]
      split
      next hd => simp [held, hd, hfresh]
      next => rfl
    · rfl
  next ht =>
    ext d'
    · rfl
    · show ((s.addDisk t block).diskHolders d').count _ = _
      rw [addDisk_holders]
      split
      next hd =>
        have hne : DiskHolder.thread t ≠ .thread t' := fun h => ht (DiskHolder.thread.inj h).symm
        simp [held, hd, hfresh, hne]
      next => rfl
    · rfl

/-! ## Mutexes -/

theorem held_lock (s : Shared) (t t' : Nat) (exclusive : Bool) (x : Mutex) :
    (s.lock t exclusive x).held t' = if t' = t then (s.held t').lock x else s.held t' := by
  split
  next ht =>
    subst ht
    ext y
    · rfl
    · rfl
    · rw [Held.lock_locks]
      show (update s.mutexes x _ y).countP _ = _
      by_cases hy : y = x
      · subst hy
        rw [update_self, List.countP_cons]
        simp [held]
      · rw [update_of_ne hy, if_neg hy]
        rfl
  next ht =>
    ext y
    · rfl
    · rfl
    · show (update s.mutexes x _ y).countP _ = _
      by_cases hy : y = x
      · subst hy
        rw [update_self, List.countP_cons]
        simp [held, Ne.symm ht]
      · rw [update_of_ne hy]
        rfl

theorem countP_eraseP_other {α : Type} {p q : α → Bool} (h : ∀ a, q a = true → p a = false) :
    ∀ xs : List α, (xs.eraseP p).countP q = xs.countP q
  | [] => rfl
  | x :: rest => by
      rw [List.eraseP_cons]
      cases hp : p x with
      | true =>
          have hq : q x = false := by
            by_contra hne
            have := h x (Bool.eq_true_of_not_eq_false hne)
            rw [hp] at this
            cases this
          simp [hq]
      | false => simp [List.countP_cons, countP_eraseP_other h rest]

theorem countP_eraseP_self {α : Type} {p : α → Bool} :
    ∀ xs : List α, (xs.eraseP p).countP p = xs.countP p - 1
  | [] => rfl
  | x :: rest => by
      rw [List.eraseP_cons]
      cases hp : p x with
      | true => simp [hp]
      | false => simp [hp, countP_eraseP_self rest]

theorem held_unlock (s : Shared) (t t' : Nat) (x : Mutex) :
    (s.unlock t x).held t' = { s.held t' with
      locks := fun y => (s.held t').locks y - if y = x ∧ t' = t then 1 else 0 } := by
  ext y
  · rfl
  · rfl
  · show (update s.mutexes x _ y).countP _ = _
    by_cases hy : y = x
    · subst hy
      rw [update_self]
      by_cases ht : t' = t
      · subst ht
        rw [countP_eraseP_self]
        simp [held]
      · rw [countP_eraseP_other]
        · simp [held, ht]
        · intro a ha
          simp only [beq_iff_eq] at ha
          simp [ha, ht]
    · rw [update_of_ne hy]
      simp [held, hy]

end Shared

end Sharing

end StarCache
