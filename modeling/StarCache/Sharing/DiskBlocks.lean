import StarCache.Sharing.Blocks

/-!
# Filling and reading disk blocks

A disk block is filled before it is published, by the thread that made it. How far it got is no
lasting knowledge, since the publication ends it, but no other thread can touch it. A disk block
that is published may be written as well, with bytes that it has already.
-/

namespace StarCache

namespace Sharing

open Discipline Function Shared DiskCache MachineInt

variable {flags : Flags} {V : Objects} {t : Nat} {h : Held} {F : Knowledge} {s : Shared}
  {r : ItemRef} {i : Nat} {d : DiskRef} {seg : BlockSegment} {bytes : IOBuf}

/-! ## Transfers -/

theorem written_pad (flags : Flags) (tr : Transfer) (buf : IOBuf) : ∃ pad,
    written flags tr buf = buf ++ pad ∧ (pad = [] ∨ flags.enableOsPageCache = false ∧
      (buf ++ pad).length = roundUp buf.length flags.ioAlignUnitSize) := by
  unfold written
  split
  next => exact ⟨[], (List.append_nil buf).symm, Or.inl rfl⟩
  next hcache =>
    refine ⟨_, rfl, Or.inr ⟨?_, ?_⟩⟩
    · rw [Bool.or_eq_true, not_or, Bool.not_eq_true] at hcache
      exact hcache.1
    · have := BlockFile.roundUp_ge buf.length _ flags.ioAlignUnitSize_pos
      rw [List.length_append, List.length_map, List.length_range]
      omega

/-- What a transfer of a part of the block does to the bytes of the block files. -/
structure Moved (flags : Flags) (id : BlockId) (bytes : IOBuf) (seg : BlockSegment)
    (files files' : Nat → Nat → Nat → UInt8) (done : Bool) : Prop where
  others : ∀ id', id' ≠ id → ∀ p < flags.blockSize,
    diskByte flags files' id' p = diskByte flags files id' p
  own : ∀ p < bytes.length, diskByte flags files' id p = diskByte flags files id p ∨
    some (diskByte flags files' id p) = bytes[p]?
  whole : done = true → ∀ p, seg.offset ≤ p → p < seg.offset + seg.size →
    some (diskByte flags files' id p) = bytes[p]?

theorem moved_refl (id : BlockId) (files : Nat → Nat → Nat → UInt8) :
    Moved flags id bytes seg files files false :=
  ⟨fun _ _ _ _ => rfl, fun _ _ => Or.inl rfl, fun h => by cases h⟩

/-- The transfer may stop anywhere. -/
theorem moved_take (hflags : Sized flags) (hseg : SegmentOk flags bytes seg) (id : BlockId)
    (files : Nat → Nat → Nat → UInt8) (tr : Transfer) {n : Nat} {done : Bool}
    (hdone : done = true → (written flags tr seg.buf).length ≤ n) :
    Moved flags id bytes seg files
      (writeBytes files (filePos flags id seg.offset) ((written flags tr seg.buf).take n)) done := by
  obtain ⟨pad, hpad, hlength⟩ := written_pad flags tr seg.buf
  have hroom := padded_room hflags.dataHyp hseg hlength
  have hwritten : ∀ p < bytes.length, _ := fun p hp =>
    diskByte_written hflags.dataHyp hseg hlength files id (p := p) hp
  have hfits := hseg.fits
  rw [hpad] at hdone ⊢
  refine ⟨fun id' hne p hp => ?_, fun p hp => ?_, fun hd p hlow hhigh => ?_⟩
  · refine diskByte_writeBytes_ne files hne (Nat.le_trans ?_ hroom) hp
    exact Nat.add_le_add_left (List.length_take_le' ..) _
  · have hp' := hwritten p hp
    rw [diskByte_writeBytes] at hp' ⊢
    split
    next hlow =>
      by_cases hlt : p - seg.offset < n
      · -- the byte was moved, and is that of the whole transfer
        rw [if_pos hlow] at hp'
        rw [List.getD_eq_getElem?_getD, List.getElem?_take_of_lt hlt,
          ← List.getD_eq_getElem?_getD]
        split at hp'
        next => exact Or.inr hp'
        next => exact Or.inl (Option.some.inj hp')
      · refine Or.inl (List.getD_eq_default _ _ ?_)
        exact Nat.le_trans (List.length_take_le ..) (Nat.not_lt.mp hlt)
    next => exact Or.inl rfl
  · rw [List.take_of_length_le (hdone hd)]
    exact (hwritten p (by omega)).trans (if_pos ⟨hlow, hhigh⟩)

theorem writeDisk_moved (hflags : Sized flags) (hseg : SegmentOk flags bytes seg) (tr : Transfer)
    (s : Shared) (id : BlockId) : ∃ files, (writeDisk flags tr s id seg).2 = { s with files := files } ∧
      Moved flags id bytes seg s.files files (writeDisk flags tr s id seg).1.ok := by
  unfold writeDisk
  split
  next => exact ⟨s.files, rfl, moved_refl id s.files⟩
  next =>
    dsimp only
    split
    next =>
      have hmoved := moved_take hflags hseg id s.files tr (n := (written flags tr seg.buf).length)
        fun _ : true = true => Nat.le_refl _
      rw [List.take_length] at hmoved
      exact ⟨_, rfl, hmoved⟩
    next f _ =>
      refine ⟨_, rfl, ?_⟩
      rw [f.not_ok]
      exact moved_take hflags hseg id s.files tr fun h => by cases h

/-! ## Writing -/

theorem part_length (flags : Flags) (s : Shared) (r : ItemRef) (i : Nat) :
    (s.part flags r i).length ≤ flags.blockSize := List.length_take_le ..

theorem Moved.goodAt {files : Nat → Nat → Nat → UInt8} {done : Bool} (hmoved :
    Moved flags (s.diskBlocks d).id (s.part flags (s.diskBlocks d).owner.1 (s.diskBlocks d).owner.2)
      seg s.files files done) {p : Nat}
    (hp : p < (s.part flags (s.diskBlocks d).owner.1 (s.diskBlocks d).owner.2).length)
    (hgood : s.GoodAt flags d p) : GoodAt flags { s with files := files } d p :=
  (hmoved.own p hp).elim (fun heq => (congrArg some heq).trans hgood) id

theorem inv_write (hs : Inv flags V s) (hd : .thread t ∈ s.diskHolders d)
    {files : Nat → Nat → Nat → UInt8} {done : Bool} (hmoved : Moved flags (s.diskBlocks d).id
      (s.part flags (s.diskBlocks d).owner.1 (s.diskBlocks d).owner.2) seg s.files files done) :
    Inv flags V { s with files := files } ∧ Guar flags t s { s with files := files } := by
  have halive : s.diskHolders d ≠ [] := List.ne_nil_of_mem hd
  have hother : ∀ d', d' ≠ d → s.diskHolders d' ≠ [] → ∀ p < flags.blockSize,
      diskByte flags files (s.diskBlocks d').id p = diskByte flags s.files (s.diskBlocks d').id p :=
    fun d' hne h' => hmoved.others _ fun heq =>
      hne (hs.ledger.blocks.distinct d' d h' halive heq)
  have hc := hs.contents
  refine ⟨⟨?_, ?_⟩, ?_⟩
  · obtain ⟨hblocks, hcounted, hslots, hburied⟩ := hs.ledger
    exact ⟨⟨hblocks.allocated, hblocks.distinct, hblocks.used, hblocks.lt⟩,
      ⟨hcounted.slot, hcounted.index, hcounted.lt⟩, hslots, hburied⟩
  · refine ⟨hc.value, hc.memSlot, hc.diskSlot,
      fun m hm => ⟨(hc.mem m hm).owner, (hc.mem m hm).length, (hc.mem m hm).segment⟩, hc.owner,
      hc.hidden, fun d' h' hpub p hp => ?_, hc.indexed⟩
    have hold := hc.good d' h' hpub p hp
    by_cases hne : d' = d
    · rw [hne] at hp hold ⊢
      exact hmoved.goodAt hp hold
    · refine (congrArg some ?_).trans hold
      exact hother d' hne h' p (Nat.lt_of_lt_of_le hp (part_length ..))
  · refine ⟨Nat.le_refl _, fun _ _ => ⟨rfl, rfl⟩, Nat.le_refl _, fun _ _ => rfl, fun _ _ _ h => h,
      Nat.le_refl _, fun _ _ => rfl, Nat.le_refl _, fun _ _ => ⟨rfl, rfl, id⟩, fun _ _ => rfl,
      fun t' ht d' hd' hpub => ⟨hpub, fun p hp => ?_⟩, .of_same rfl rfl rfl rfl rfl⟩
    refine hother d' ?_ (List.ne_nil_of_mem hd') p hp
    rintro rfl
    obtain ⟨t₀, ht₀⟩ := hc.hidden d' hpub
    have hsame := DiskHolder.thread.inj ((ht₀ _ hd').trans (ht₀ _ hd).symm)
    exact ht hsame

/-- The bytes of a published block are written again. -/
theorem writeOver_runs (hF : Lasting flags V F) (hflags : Sized flags) (hd : 0 < h.disks d)
    (hdisk : Gets flags V F (DiskOf d r i)) (hseg : Gets flags V F (DataOf flags seg r i)) :
    Runs flags V t h F (perform (.writeDisk d seg)) (fun _ => h) fun _ => F := by
  refine (runs_perform hF (fun _ => persistent_const True) (.refl F) fun tr s hs hh hP => ?_).post
    fun _ => (Gets.refl F).left
  have hmem := alive_disk hh hd
  obtain ⟨_, howner⟩ := hdisk tr s hs hP
  obtain ⟨_, hok⟩ := hseg tr s hs hP
  refine ⟨Or.inr fun i => ?_, fun input a s' heffect => ?_⟩
  · simp only [effect, if_neg (List.ne_nil_of_mem hmem), Option.isSome]
  · simp only [effect, if_neg (List.ne_nil_of_mem hmem), Option.some.injEq] at heffect
    obtain ⟨files, hstate, hmoved⟩ :=
      writeDisk_moved hflags hok input.transfer s (s.diskBlocks d).id
    rw [heffect] at hstate hmoved
    dsimp only at hstate
    subst hstate
    have hpart : s.part flags (s.diskBlocks d).owner.1 (s.diskBlocks d).owner.2 =
        s.part flags r i := by rw [howner]
    obtain ⟨hs', hguar⟩ := inv_write hs hmem (hpart ▸ hmoved)
    exact ⟨hs', hguar, hh, trivial⟩

/-! ## Filling -/

/-- A disk block that is not published, and the bytes of the block that it has. -/
def Filled (flags : Flags) (d : DiskRef) (r : ItemRef) (i : Nat) (done : Nat → Prop) : Knowledge :=
  fun _ s => d < s.diskCount ∧ (s.diskBlocks d).owner = (r, i) ∧
    (s.diskBlocks d).published = false ∧ ∀ p < (s.part flags r i).length, done p → s.GoodAt flags d p

theorem filled_stable (hF : Lasting flags V F) (hd : 0 < h.disks d) {done : Nat → Prop} :
    (discipline flags V).Stable t
      (At t h fun tr s => F tr s ∧ Filled flags d r i done tr s) := by
  rintro t' ht tr s s' hs hs' hguar ⟨hh, hP, hlt, howner, hpub, hgood⟩
  have hmem := alive_disk hh hd
  obtain ⟨howner', hid, _⟩ := hguar.disk d hlt
  obtain ⟨hpub', hbytes⟩ := hguar.hidden t ht.symm d hmem hpub
  have hr := hs.contents.owner d (List.ne_nil_of_mem hmem)
  rw [howner] at hr howner'
  have hpart : s'.part flags r i = s.part flags r i := by
    unfold part
    rw [(hguar.item r hr).2]
  refine ⟨(hguar.held t ht.symm).trans hh, hF.stable t' ht tr s s' hs hs' hguar hP,
    Nat.lt_of_lt_of_le hlt hguar.diskCount, howner', hpub', fun p hp hdone => ?_⟩
  rw [hpart] at hp
  have hold := hgood p hp hdone
  unfold GoodAt at hold ⊢
  rw [howner] at hold
  rw [howner', hid, hbytes p (Nat.lt_of_lt_of_le hp (part_length ..)), hpart]
  exact hold

/-- A new disk block of an item that there is. -/
theorem inv_addDisk (hs : Inv flags V s) (hr : r < s.itemCount) {id : BlockId}
    (hfree : s.allocated id = false) : Inv flags V (s.addDisk t { owner := (r, i), id := id }) ∧
      Guar flags t s (s.addDisk t { owner := (r, i), id := id }) := by
  have hhold := addDisk_holders s t { owner := (r, i), id := id }
  have hblock := addDisk_diskBlocks s t { owner := (r, i), id := id }
  have hold : ∀ d, d ≠ s.diskCount → s.diskBlocks d =
      (s.addDisk t { owner := (r, i), id := id }).diskBlocks d := fun d hne => by
    rw [hblock, if_neg hne]
  have hlt : ∀ d, s.diskHolders d ≠ [] → d ≠ s.diskCount := fun d hd =>
    Nat.ne_of_lt (hs.ledger.blocks.lt d hd)
  have hc := hs.contents
  refine ⟨⟨ledger_addDisk hs.ledger hfree, hc.value, hc.memSlot, fun r' i' d hd => ?_,
    fun m hm => ⟨(hc.mem m hm).owner, (hc.mem m hm).length, (hc.mem m hm).segment⟩,
    fun d hd => ?_, fun d hpub => ?_, fun d hd hpub p hp => ?_, hc.indexed⟩, ?_⟩
  · rw [← hold d (hlt d (List.ne_nil_of_mem (alive_of_slot hs.ledger.counted hd)))]
    exact hc.diskSlot r' i' d hd
  · rw [hhold] at hd
    rw [hblock]
    split at hd
    next hnew =>
      rw [if_pos hnew]
      exact hr
    next hnew =>
      rw [if_neg hnew]
      exact hc.owner d hd
  · rw [hhold]
    rw [hblock] at hpub
    split
    next => exact ⟨t, fun x hx => List.mem_singleton.mp hx⟩
    next hnew =>
      rw [if_neg hnew] at hpub
      exact hc.hidden d hpub
  · rw [hhold] at hd
    by_cases hnew : d = s.diskCount
    · rw [hblock, if_pos hnew] at hpub
      cases hpub
    · rw [if_neg hnew] at hd
      unfold GoodAt
      rw [← hold d hnew] at hp hpub ⊢
      exact hc.good d hd hpub p hp
  · refine ⟨Nat.le_refl _, fun _ _ => ⟨rfl, rfl⟩, Nat.le_refl _, fun _ _ => rfl, fun _ _ _ h => h,
      Nat.le_refl _, fun _ _ => rfl, Nat.le_succ _, fun d hd => ?_, fun t' ht => ?_,
      fun t' ht d hd hpub => ⟨?_, fun _ _ => rfl⟩, .of_same rfl rfl rfl rfl rfl⟩
    · rw [← hold d (Nat.ne_of_lt hd)]
      exact ⟨rfl, rfl, fun h => h⟩
    · rw [held_addDisk hs.ledger, if_neg ht]
    · rw [← hold d (hlt d (List.ne_nil_of_mem hd))]
      exact hpub

theorem newDisk_runs (hF : Lasting flags V F) (hin : Gets flags V F (InItem flags r i)) :
    Runs flags V t h F (perform (.newDisk r i)) (fun a => a.elim h h.disk) fun a =>
      a.elim F fun d tr s => F tr s ∧ Filled flags d r i (fun _ => False) tr s := by
  refine outline_perform (fun a => ?_) fun tr s hs hP => ⟨Or.inr fun input => ?_, ?_⟩
  · cases a with
    | none => exact lasting_stable hF
    | some d =>
        refine filled_stable hF ?_
        show 0 < (h.disk d).disks d
        rw [Held.disk_disks, if_pos rfl]
        exact Nat.succ_pos _
  · simp only [discipline, effect]
    split
    · rfl
    · split <;> rfl
  · intro input a s' heffect
    simp only [discipline, effect] at heffect
    have hnone : Inv flags V s ∧ Guar flags t s s ∧ s.held t = h ∧ F (⟨.newDisk r i, none⟩ :: tr) s :=
      ⟨hs, .refl s, hP.1, hF t tr _ s s hs hs (.refl s) (List.suffix_cons ..) hP.2⟩
    split at heffect
    next =>
      cases heffect
      exact hnone
    next id _ =>
      split at heffect
      next =>
        cases heffect
        exact hnone
      next hfree =>
        cases heffect
        have hlt : s.diskCount < s.diskCount + 1 := Nat.lt_succ_self _
        obtain ⟨hs', hguar⟩ := inv_addDisk (t := t) (i := i) hs (hin tr s hs hP.2).1
          (Bool.not_eq_true _ ▸ hfree : s.allocated id = false)
        refine ⟨hs', hguar, ?_, hF t tr _ s _ hs hs' hguar (List.suffix_cons ..) hP.2, hlt, ?_⟩
        · rw [held_addDisk hs.ledger, if_pos rfl, hP.1]
          rfl
        · rw [addDisk_diskBlocks, if_pos rfl]
          exact ⟨rfl, rfl, fun _ _ h => h.elim⟩

/-- A part of the block is put into a disk block that is not published. -/
theorem fill_runs (hF : Lasting flags V F) (hflags : Sized flags) (hd : 0 < h.disks d)
    (hseg : Gets flags V F (DataOf flags seg r i)) {done : Nat → Prop} :
    Runs flags V t h (fun tr s => F tr s ∧ Filled flags d r i done tr s) (perform (.writeDisk d seg))
      (fun _ => h) fun st tr s => F tr s ∧ Filled flags d r i (fun p => done p ∨
        st.ok = true ∧ seg.offset ≤ p ∧ p < seg.offset + seg.size) tr s := by
  refine outline_perform (fun _ => filled_stable hF hd) fun tr s hs ⟨hh, hP, hlt, howner, hpub, hgood⟩ =>
    ⟨Or.inr fun i => ?_, fun input a s' heffect => ?_⟩
  all_goals have hmem := alive_disk hh hd
  · simp only [discipline, effect, if_neg (List.ne_nil_of_mem hmem), Option.isSome]
  · simp only [discipline, effect, if_neg (List.ne_nil_of_mem hmem), Option.some.injEq] at heffect
    obtain ⟨_, hok⟩ := hseg tr s hs hP
    obtain ⟨files, hstate, hmoved⟩ :=
      writeDisk_moved hflags hok input.transfer s (s.diskBlocks d).id
    rw [heffect] at hstate hmoved
    dsimp only at hstate
    subst hstate
    have hpart : s.part flags (s.diskBlocks d).owner.1 (s.diskBlocks d).owner.2 =
        s.part flags r i := by rw [howner]
    obtain ⟨hs', hguar⟩ := inv_write hs hmem (hpart ▸ hmoved)
    refine ⟨hs', hguar, hh, hF t tr _ s _ hs hs' hguar (List.suffix_cons ..) hP, hlt, howner, hpub,
      fun p hp hdone => ?_⟩
    rcases hdone with hdone | ⟨hst, hlow, hhigh⟩
    · exact Moved.goodAt (hpart ▸ hmoved) (hpart ▸ hp) (hgood p hp hdone)
    · have hwhole := hmoved.whole hst p hlow hhigh
      unfold GoodAt
      rw [← hpart] at hwhole
      exact hwhole

/-! ## Publishing -/

/-- A disk block that is not published is kept by one thread. -/
theorem hidden_ne {t' : Nat} (hs : Contents flags V s) (hd : .thread t ∈ s.diskHolders d)
    (ht : t' ≠ t) {d' : DiskRef} (hd' : .thread t' ∈ s.diskHolders d')
    (hpub : (s.diskBlocks d').published = false) : d' ≠ d := by
  rintro rfl
  obtain ⟨t₀, ht₀⟩ := hs.hidden d' hpub
  exact ht (DiskHolder.thread.inj ((ht₀ _ hd').trans (ht₀ _ hd).symm))

theorem publish_diskHolders (s : Shared) (r : ItemRef) (i : Nat) (d d' : DiskRef) :
    (s.publish r i d).diskHolders d' = if d' = d then .block r i :: (s.clearDisk r i).diskHolders d
      else (s.clearDisk r i).diskHolders d' := by
  show update (s.clearDisk r i).diskHolders d _ d' = _
  by_cases hd : d' = d
  · rw [hd, update_self, if_pos rfl]
  · rw [update_of_ne hd, if_neg hd]

/-- Publication changes slots, pointers and the mark of the disk block. -/
theorem publish_eq (s : Shared) (r : ItemRef) (i : Nat) (d : DiskRef) : s.publish r i d = { s with
    diskSlot := (s.publish r i d).diskSlot, diskHolders := (s.publish r i d).diskHolders
    allocated := (s.publish r i d).allocated, diskBlocks := (s.publish r i d).diskBlocks } := by
  have hclear : s.clearDisk r i = { s with
      diskSlot := (s.clearDisk r i).diskSlot, diskHolders := (s.clearDisk r i).diskHolders
      allocated := (s.clearDisk r i).allocated } := by
    cases h : s.diskSlot r i with
    | none => rw [clearDisk_none h]
    | some d => rw [clearDisk_some h]; rfl
  unfold publish
  rw [hclear]
  rfl

theorem inv_publish (hs : Inv flags V s) (hr : s.HasBlock flags r i)
    (hd : .thread t ∈ s.diskHolders d) (howner : (s.diskBlocks d).owner = (r, i))
    (hgood : ∀ p < (s.part flags r i).length, s.GoodAt flags d p) :
    Inv flags V (s.publish r i d) ∧ Guar flags t s (s.publish r i d) := by
  have hledger := ledger_publish hs.ledger hr hd
  have hheld := held_publish s r i d
  have hslot : ∀ r' i', (s.publish r i d).diskSlot r' i' =
      if r' = r ∧ i' = i then some d else (s.clearDisk r i).diskSlot r' i' :=
    fun r' i' => putSlot_diskSlot _ r r' i i' _
  have hblock := publish_diskBlocks s r i d
  have hholders := publish_diskHolders s r i d
  have hgives := clearDisk_gives s r i
  have hc := hs.contents
  have halive : ∀ d', (s.publish r i d).diskHolders d' ≠ [] → s.diskHolders d' ≠ [] := by
    intro d' h'
    by_cases hdd : d' = d
    · rw [hdd]
      exact List.ne_nil_of_mem hd
    · rw [hholders, if_neg hdd] at h'
      obtain ⟨x, hx⟩ := List.exists_mem_of_ne_nil _ h'
      exact List.ne_nil_of_mem (hgives.holders d' x hx)
  have hsame : ∀ d', ((s.publish r i d).diskBlocks d').owner = (s.diskBlocks d').owner ∧
      ((s.publish r i d).diskBlocks d').id = (s.diskBlocks d').id ∧
      ((s.diskBlocks d').published = true → ((s.publish r i d).diskBlocks d').published = true) := by
    intro d'
    rw [hblock]
    split
    next hdd =>
      rw [hdd]
      exact ⟨rfl, rfl, fun _ => rfl⟩
    next => exact ⟨rfl, rfl, id⟩
  have hkeep : ∀ d', ((s.publish r i d).diskBlocks d').published = false →
      (s.diskBlocks d').published = false ∧ d' ≠ d := by
    intro d' hpub
    rw [hblock] at hpub
    split at hpub
    next => cases hpub
    next hdd => exact ⟨hpub, hdd⟩
  have heq := publish_eq s r i d
  generalize s.publish r i d = s' at *
  generalize s'.diskSlot = diskSlot at heq hslot
  generalize s'.diskHolders = diskHolders at heq hholders halive
  generalize s'.allocated = allocated at heq
  generalize s'.diskBlocks = diskBlocks at heq hblock hsame hkeep
  subst heq
  refine ⟨⟨hledger, hc.value, hc.memSlot, fun r' i' d' hd' => ?_,
    fun m hm => ⟨(hc.mem m hm).owner, (hc.mem m hm).length, (hc.mem m hm).segment⟩,
    fun d' h' => ?_, fun d' hpub => ?_, fun d' h' hpub p hp => ?_, hc.indexed⟩, ?_⟩
  · dsimp only at hd' ⊢
    rw [hslot] at hd'
    split at hd'
    next hri =>
      cases hd'
      rw [hblock, if_pos rfl, hri.1, hri.2]
      exact ⟨howner, rfl⟩
    next =>
      obtain ⟨howner', hpub'⟩ := hc.diskSlot r' i' d' (hgives.disk r' i' d' hd')
      exact ⟨(hsame d').1.trans howner', (hsame d').2.2 hpub'⟩
  · dsimp only at h' ⊢
    rw [(hsame d').1]
    exact hc.owner d' (halive d' h')
  · dsimp only at hpub ⊢
    obtain ⟨hpub', hne⟩ := hkeep d' hpub
    rw [hholders, if_neg hne]
    exact (hc.hidden d' hpub').imp fun t' ht' x hx => ht' x (hgives.holders d' x hx)
  · unfold GoodAt part
    dsimp only at h' hpub hp ⊢
    obtain ⟨howner', hid, _⟩ := hsame d'
    unfold part at hp
    dsimp only at hp
    rw [howner'] at hp
    rw [howner', hid]
    by_cases hdd : d' = d
    · subst hdd
      have hp' : p < (s.part flags r i).length := by
        unfold part
        rwa [howner] at hp
      exact hgood p hp'
    · rw [hblock, if_neg hdd] at hpub
      exact hc.good d' (halive d' h') hpub p hp
  · refine ⟨Nat.le_refl _, fun _ _ => ⟨rfl, rfl⟩, Nat.le_refl _, fun _ _ => rfl, fun _ _ _ h => h,
      Nat.le_refl _, fun _ _ => rfl, Nat.le_refl _, fun d' _ => hsame d', fun t' _ => hheld t',
      fun t' ht d' hd' hpub => ⟨?_, fun _ _ => rfl⟩, fun _ _ h => h, fun _ _ h => h.alive,
      fun _ _ _ h => h, fun r' _ _ i' hwhole => hwhole.imp_right fun ⟨d', hd'⟩ => ?_,
      fun _ _ h h' => absurd (h.symm.trans h') (by decide)⟩
    · dsimp only
      rw [hblock, if_neg (hidden_ne hc hd ht hd' hpub)]
      exact hpub
    · dsimp only
      rw [hslot, clearDisk_diskSlot]
      split
      next => exact ⟨d, rfl⟩
      next => exact ⟨d', hd'⟩

/-- A filled disk block is put into a slot, or one that has been there. -/
theorem publish_runs (hF : Lasting flags V F) {P : Knowledge} (hPF : Gets flags V P F)
    (hr : 0 < h.items r) (hd : 0 < h.disks d) (hin : Gets flags V F (InItem flags r i))
    (hgood : Gets flags V P fun _ s => s.diskHolders d ≠ [] → (s.diskBlocks d).owner = (r, i) ∧
      ∀ p < (s.part flags r i).length, s.GoodAt flags d p) :
    Runs flags V t h P (perform (.setDisk r i (some d))) (fun _ => h)
      fun _ tr s => F tr s ∧ WholeOf flags r i tr s := by
  refine runs_perform hF (fun _ => lasting_wholeOf) hPF fun tr s hs hh hP => ?_
  have hmem := alive_disk hh hd
  have hblock := hasBlock hh hr (hin tr s hs (hPF tr s hs hP))
  obtain ⟨howner, hgood⟩ := hgood tr s hs hP (List.ne_nil_of_mem hmem)
  refine ⟨Or.inr fun _ => ?_, fun _ a s' heffect => ?_⟩
  · simp only [effect, if_pos (And.intro hblock hmem), Option.isSome]
  · simp only [effect, if_pos (And.intro hblock hmem)] at heffect
    cases heffect
    obtain ⟨hs', hguar⟩ := inv_publish hs hblock hmem howner hgood
    refine ⟨hs', hguar, (held_publish ..).trans hh, ?_, fun _ => Or.inr ?_⟩
    · exact Nat.lt_of_lt_of_le (hin tr s hs (hPF tr s hs hP)).1 hguar.itemCount
    · exact ⟨d, (putSlot_diskSlot _ r r i i _).trans (if_pos ⟨rfl, rfl⟩)⟩

theorem publishFilled_runs (hF : Lasting flags V F) (hr : 0 < h.items r) (hd : 0 < h.disks d)
    (hin : Gets flags V F (InItem flags r i)) {done : Nat → Prop}
    (hall : Gets flags V F fun _ s => ∀ p < (s.part flags r i).length, done p) :
    Runs flags V t h (fun tr s => F tr s ∧ Filled flags d r i done tr s)
      (perform (.setDisk r i (some d))) (fun _ => h)
      fun _ tr s => F tr s ∧ WholeOf flags r i tr s :=
  publish_runs hF (Gets.refl F).left hr hd hin fun tr s hs hP _ =>
    ⟨hP.2.2.1, fun p hp => hP.2.2.2.2 p hp (hall tr s hs hP.1 p hp)⟩

theorem publishAgain_runs (hF : Lasting flags V F) (hr : 0 < h.items r) (hd : 0 < h.disks d)
    (hin : Gets flags V F (InItem flags r i)) (hpub : Gets flags V F (PublishedOf d r i)) :
    Runs flags V t h F (perform (.setDisk r i (some d))) (fun _ => h)
      fun _ tr s => F tr s ∧ WholeOf flags r i tr s := by
  refine publish_runs hF (Gets.refl F) hr hd hin fun tr s hs hP halive => ?_
  obtain ⟨_, howner, hpub⟩ := hpub tr s hs hP
  have hgood := hs.contents.good d halive hpub
  rw [howner] at hgood
  exact ⟨howner, hgood⟩

/-- The mutex is locked while the disk block is still that of the thread alone. -/
theorem lockFilled_runs (hF : Lasting flags V F) (hfree : h.Free) (hd : 0 < h.disks d)
    {exclusive : Bool} {x : Mutex} {done : Nat → Prop} :
    Runs flags V t h (fun tr s => F tr s ∧ Filled flags d r i done tr s) (perform (.lock exclusive x))
      (fun _ => h.lock x) fun _ tr s => F tr s ∧ Filled flags d r i done tr s := by
  refine outline_perform (fun _ => filled_stable (h := h.lock x) hF hd)
    fun tr s hs ⟨hh, hP, hfilled⟩ =>
    ⟨lock_ready hh hfree, fun input a s' heffect => ?_⟩
  obtain ⟨hs', hguar, hh', rfl⟩ := lock_step hs hh (show effect flags t _ input s = _ from heffect)
  exact ⟨hs', hguar, hh', hF t tr _ s _ hs hs' hguar (List.suffix_cons ..) hP, hfilled⟩

/-! ## Reading -/

/-- Reading a range of a published block. -/
theorem readDisk_runs (hF : Lasting flags V F) (hflags : Sized flags) (hd : 0 < h.disks d)
    {cacheKey : CacheKey} {value : IOBuf} (hitem : Gets flags V F (IsItem r cacheKey value))
    (hpub : Gets flags V F (PublishedOf d r i)) {offset size : Nat}
    (hoffset : flags.sliceSize ∣ offset) (hpos : 0 < size)
    (hfit : offset + size ≤ (blockPart flags value i).length)
    (hend : flags.sliceSize ∣ offset + size ∨ offset + size = (blockPart flags value i).length) :
    Runs flags V t h F (perform (.readDisk d offset size)) (fun _ => h) fun a tr s => F tr s ∧
      (a.1.ok = true → SegmentOk flags (blockPart flags value i) ⟨offset, size, a.2⟩) := by
  refine runs_perform hF (fun _ => persistent_const _) (.refl F) fun tr s hs hh hP => ?_
  have halive : s.diskHolders d ≠ [] := List.ne_nil_of_mem (alive_disk hh hd)
  obtain ⟨_, _, hvalue⟩ := hitem tr s hs hP
  obtain ⟨_, howner, hpub⟩ := hpub tr s hs hP
  have hgood := hs.contents.good d halive hpub
  unfold GoodAt part at hgood
  rw [howner, hvalue] at hgood
  have hlen : (blockPart flags value i).length ≤ flags.blockSize := List.length_take_le ..
  have hseg := readBytes_segment hflags.slice_dvd hflags.align hgood hlen hoffset hpos hfit hend
  refine ⟨Or.inr fun _ => ?_, fun input a s' heffect => ?_⟩
  · simp only [effect, if_neg halive, Option.isSome]
  simp only [effect, if_neg halive] at heffect
  cases heffect
  refine ⟨hs, .refl s, hh, fun hok => ?_⟩
  have hroom := hseg.room
  have hblock := hflags.block_lt
  rw [BlockFile.length_readBytes] at hroom
  dsimp only at hroom
  unfold readDisk at hok ⊢
  split at hok
  next => cases hok
  next haligned =>
    rw [if_neg haligned]
    split at hok
    next f _ =>
      rw [f.not_ok] at hok
      cases hok
    next =>
      rw [if_neg] at hok ⊢
      · exact hseg
      all_goals
        rw [i32_of_lt (by omega)]
        omega

end Sharing

end StarCache
