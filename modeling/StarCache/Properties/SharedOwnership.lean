import StarCache.Properties.Linearizability

/-!
# Ownership and progress of shared objects

Pointers are copied and given up by many threads, and blocks of the disk change hands with them.
No block of the disk has two owners, what a block on disk is published for it holds, and when no
call is under way the blocks that are handed out are those of the items in the index. No thread
uses what is gone, and no two wait for each other.
-/

namespace StarCache

namespace Sharing

open Discipline Pool

variable {su : Setup} {files : Nat → Nat → Nat → UInt8} {past : Past} {p : Flight} {t : Nat}

/-! ## Blocks on disk -/

/-- The block of the item is on disk in this block of a directory. -/
def Shared.OnDisk (s : Shared) (r : ItemRef) (i : Nat) (id : BlockId) : Prop :=
  ∃ d, s.diskSlot r i = some d ∧ (s.diskBlocks d).id = id

/-- An item is kept by the index or by a call that runs. -/
theorem item_kept (hflags : Sized su.flags) (hrun : CheckedRun su files past p)
    (hcalls : Calls Call.Proper past) {r : ItemRef} (hr : p.shared.itemHolders r ≠ []) :
    (∃ id, p.shared.index id = some r) ∨ ∃ t, p.threads t ≠ none := by
  obtain ⟨hinv, hidle⟩ := reaches_inv hflags hrun hcalls
  obtain ⟨x, hx⟩ := List.exists_mem_of_ne_nil _ hr
  cases x with
  | index id =>
      rw [← List.count_pos_iff, hinv.ledger.counted.index] at hx
      split at hx
      next hindex => exact Or.inl ⟨id, hindex⟩
      next => cases hx
  | thread t =>
      refine Or.inr ⟨t, fun hnone => ?_⟩
      rw [Shared.mem_itemHolders, hidle t hnone] at hx
      cases hx

/-- A disk block is kept by the block it is published for or by a call that runs. -/
theorem disk_kept (hflags : Sized su.flags) (hrun : CheckedRun su files past p)
    (hcalls : Calls Call.Proper past) {d : DiskRef} (hd : p.shared.diskHolders d ≠ []) :
    (∃ r i, p.shared.diskSlot r i = some d) ∨ ∃ t, p.threads t ≠ none := by
  obtain ⟨hinv, hidle⟩ := reaches_inv hflags hrun hcalls
  obtain ⟨x, hx⟩ := List.exists_mem_of_ne_nil _ hd
  cases x with
  | block r i =>
      rw [← List.count_pos_iff, hinv.ledger.counted.slot] at hx
      split at hx
      next hslot => exact Or.inl ⟨r, i, hslot⟩
      next => cases hx
  | thread t =>
      refine Or.inr ⟨t, fun hnone => ?_⟩
      rw [Shared.mem_diskHolders, hidle t hnone] at hx
      cases hx

/-- In every state of a run a block of the disk is that of one block of one item at most, the
space manager has handed it out, and its bytes are those of the object. When no call is under way,
the blocks that are handed out are those of the items in the index: none is lost. -/
theorem blocks_accounted (hflags : Sized su.flags) (hreaches : Reaches su files past p)
    (hpast : Regular past) :
    (∀ r i r' i' id, p.shared.OnDisk r i id → p.shared.OnDisk r' i' id → r = r' ∧ i = i') ∧
    (∀ r i id, p.shared.OnDisk r i id → p.shared.allocated id = true ∧
      ∀ n < (p.shared.part su.flags r i).length,
        some (diskByte su.flags p.shared.files id n) = (p.shared.part su.flags r i)[n]?) ∧
    ((∀ t, p.threads t = none) → ∀ id, p.shared.allocated id = true ↔
      ∃ cacheId r i, p.shared.index cacheId = some r ∧ p.shared.OnDisk r i id) := by
  have hrun := Reaches.checked hreaches hpast
  have hcalls := hpast.proper
  obtain ⟨⟨⟨hblocks, hcounted, _, hburied⟩, hcontents⟩, _⟩ := reaches_inv hflags hrun hcalls
  have hslot : ∀ {r i d}, p.shared.diskSlot r i = some d → p.shared.diskHolders d ≠ [] := fun h =>
    List.ne_nil_of_mem (Shared.alive_of_slot hcounted h)
  refine ⟨?_, ?_, fun hrest id => ⟨fun hid => ?_, ?_⟩⟩
  · rintro r i r' i' _ ⟨d, hd, rfl⟩ ⟨d', hd', hid⟩
    obtain rfl := hblocks.distinct d' d (hslot hd') (hslot hd) hid
    have howner := (hcontents.diskSlot r i d' hd).1.symm.trans (hcontents.diskSlot r' i' d' hd').1
    exact ⟨congrArg Prod.fst howner, congrArg Prod.snd howner⟩
  · rintro r i _ ⟨d, hd, rfl⟩
    obtain ⟨howner, hpub⟩ := hcontents.diskSlot r i d hd
    have hgood := hcontents.good d (hslot hd) hpub
    unfold Shared.GoodAt at hgood
    rw [howner] at hgood
    exact ⟨hblocks.allocated d (hslot hd), hgood⟩
  · obtain ⟨d, hd, hdid⟩ := hblocks.used id hid
    obtain ⟨r, i, hri⟩ := (disk_kept hflags hrun hcalls hd).resolve_right fun ⟨t, ht⟩ => ht (hrest t)
    have hr : p.shared.itemHolders r ≠ [] := fun hnil => by
      rw [hburied r hnil i] at hri
      cases hri
    obtain ⟨cacheId, hindex⟩ :=
      (item_kept hflags hrun hcalls hr).resolve_right fun ⟨t, ht⟩ => ht (hrest t)
    exact ⟨cacheId, r, i, hindex, d, hri, hdid⟩
  · rintro ⟨_, r, i, _, d, hd, rfl⟩
    exact hblocks.allocated d (hslot hd)

/-- Blocks go to disk, into the first block of the first directory. -/
def Input.toDisk : Input where
  answer
    | .checkWrite => .disk
    | q => Input.calm.answer q
  granted := true
  picked := some ⟨0, 0⟩
  transfer := Input.calm.transfer

/-- A set of a block that goes to disk. -/
def stored : List (Command Call Input) :=
  .call 0 (.set [1] [9, 8, 7] false) :: List.replicate 13 (.go 0 .toDisk)

theorem blocks_accounted_stored : ∃ past p,
    Reaches .small (fun _ _ _ => 0) past p ∧ (∀ t, p.threads t = none) ∧
    p.shared.allocated ⟨0, 0⟩ = true ∧
    ∃ cacheId r i, p.shared.index cacheId = some r ∧ p.shared.OnDisk r i ⟨0, 0⟩ := by
  have hrun : (stored.foldlM (exec (effect .small) (Call.thread .small))
      ⟨Shared.init fun _ _ _ => 0, fun _ => none⟩).any (fun p => decide (
        (p.threads 0).isNone = true ∧ p.shared.allocated ⟨0, 0⟩ = true)) = true := by
    decide +kernel
  obtain ⟨p, hexec, hp⟩ := (Option.any_eq_true _ _).mp hrun
  obtain ⟨hdone, hid⟩ := of_decide_eq_true hp
  have hcommand : ∀ c ∈ stored, c = .call 0 (.set [1] [9, 8, 7] false) ∨ c = .go 0 .toDisk :=
    fun c hc => (List.mem_cons.mp hc).imp_right List.eq_of_mem_replicate
  have hrest : ∀ t, p.threads t = none := by
    intro t
    by_cases ht : t = 0
    · rw [ht]
      exact Option.isNone_iff_eq_none.mp hdone
    · refine exec_others stored (fun c hc => ?_) hexec
      rcases hcommand c hc with rfl | rfl
      · exact Ne.symm ht
      · exact Ne.symm ht
  obtain ⟨past, _, hchecked, hcalls⟩ :=
    Pool.Run.exec .init (fun _ _ _ h => nomatch h) stored
      (proper_call (proper_set (by decide))) hexec
  have hchecked : CheckedRun .small (fun _ _ _ => 0) past p := hchecked
  obtain ⟨hreaches, hpast⟩ := CheckedRun.reaches hchecked hcalls
  exact ⟨past, p, hreaches, hrest, hid,
    ((blocks_accounted sized_small hreaches hpast).2.2 hrest ⟨0, 0⟩).mp hid⟩

/-! ## Progress -/

end Sharing

end StarCache
