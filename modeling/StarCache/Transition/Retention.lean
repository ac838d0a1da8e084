import StarCache.Transition.Frame

/-!
# What an indexed item keeps

An item of the index holds on to its data unless the call records that it has lost
some; a pinned item loses data only by a failed flush, and in a cache without disks
not at all. Keys that a call has tracked stay tracked unless the call takes them
back itself.
-/

namespace StarCache

open Prog MachineInt

variable {pf : Platform} {sc : Scenario pf} {a : Action} {x y : World} {P : Action → Prop}
  {id : CacheId} {r : ItemRef} {i : Nat}

/-! ## Data of an item -/

/-- A property of blocks that only the loss of data can end. -/
structure Durable (D : Prop) (K : BlockItem → Prop) : Prop where
  disk : ∀ b, b.diskBlockItem ≠ none → K b
  nonEmpty : ∀ b, K b → b.isEmpty = false
  mem : ∀ b block, K b → (D → ∀ old, b.memBlockItem = some old →
    ∀ k, Resident old.slices k → Resident block.slices k) → K { b with memBlockItem := some block }

/-- A block that is on disk or has slice `k` in memory. -/
def BlockItem.Holds (k : Nat) (b : BlockItem) : Prop :=
  b.diskBlockItem ≠ none ∨ ∃ block, b.memBlockItem = some block ∧ Resident block.slices k

/-- The slices of a block in memory. -/
def BlockItem.slices (b : BlockItem) : List (Option SegmentRef) :=
  (b.memBlockItem.map (·.slices)).getD []

theorem BlockItem.isEmpty_of_disk {b : BlockItem} (h : b.diskBlockItem ≠ none) :
    b.isEmpty = false := by
  cases hdisk : b.diskBlockItem with
  | none => exact absurd hdisk h
  | some _ => simp [BlockItem.isEmpty, hdisk]

theorem durable_disk (D : Prop) : Durable D fun b => b.diskBlockItem ≠ none :=
  ⟨fun _ h => h, fun _ => BlockItem.isEmpty_of_disk, fun _ _ h _ => h⟩

theorem durable_holds {D : Prop} (hD : D) (k : Nat) : Durable D (BlockItem.Holds k) := by
  refine ⟨fun _ h => Or.inl h, fun b h => ?_, fun b block h hgrows => ?_⟩
  · rcases h with h | ⟨block, h, _⟩
    · exact BlockItem.isEmpty_of_disk h
    · simp [BlockItem.isEmpty, h]
  · exact h.imp_right fun ⟨old, hold, hk⟩ => ⟨block, rfl, hgrows hD old hold k hk⟩

theorem State.Harmed.mono {s t : State} (h : s.Harmed r) (hstatic : Static s t) : t.Harmed r := by
  obtain ⟨e, he, hharms⟩ := h
  exact ⟨e, hstatic.mem_trace he, hharms⟩

theorem Step.retain {K : BlockItem → Prop} (hK : Durable sc.D K) (hstep : Step sc a x y)
    (hinv : Inv sc x) (hpublish : a ≠ .publish id) (hremove : a ≠ .remove id)
    (hfind : x.state.find id = some r) (hheld : ∃ b, x.state.HasBlock r i b ∧ K b) :
    y.state.Harmed r ∨ (y.state.find id = some r ∧ ∃ b, y.state.HasBlock r i b ∧ K b) := by
  obtain ⟨b, hb, hKb⟩ := hheld
  have hindexed : x.state.Indexed r := ⟨id, hfind⟩
  -- the effect of a rewritten block
  have hupdate : ∀ {s : State} (r' : ItemRef) (j : Nat) (f : BlockItem → BlockItem),
      s.find id = some r → s.HasBlock r i b → (r = r' → j = i → K (f b)) →
        (s.withItem r' ((s.items r').updateBlock j f)).find id = some r ∧
          ∃ b', (s.withItem r' ((s.items r').updateBlock j f)).HasBlock r i b' ∧ K b' := by
    intro s r' j f hfind hb hK
    refine ⟨hfind, _, State.hasBlock_updateBlock.mpr ⟨b, hb, rfl⟩, ?_⟩
    split
    next heq => exact hK heq.1 heq.2
    next => exact hKb
  cases hstep with
  | @newItem s _ _ _ _ _ _ _ =>
      refine Or.inr ⟨hfind, b, ?_, hKb⟩
      unfold State.HasBlock
      dsimp only
      rw [Function.update_of_ne (Nat.ne_of_lt (hinv.wf.indexed_lt hfind))]
      exact hb
  | collect heffect _ =>
      refine Or.inr ⟨?_, b, ?_, hKb⟩ <;> rw [heffect.eq]
      · exact hfind
      · exact hb
  | attachMem r' j block _ _ _ hgrows =>
      refine Or.inr (hupdate r' j _ hfind hb ?_)
      rintro rfl rfl
      exact hK.mem b block hKb fun hD old hold k hk => hgrows hD b old hb hold k hk
  | @dropMem s _ r' j hcause =>
      by_cases hsame : r = r' ∧ j = i
      · obtain ⟨rfl, rfl⟩ := hsame
        obtain ⟨_, ⟨b₀, hb₀, hdisk⟩ | ⟨key, _, hfailed⟩⟩ := hcause hindexed
        · obtain rfl : b₀ = b := Option.some.inj (hb₀.symm.trans hb)
          exact Or.inr (hupdate r j _ hfind hb fun _ _ => hK.disk _ hdisk)
        · exact Or.inl ⟨_, hfailed, rfl⟩
      · exact Or.inr (hupdate r' j _ hfind hb fun hr hj => absurd ⟨hr, hj⟩ hsame)
  | attachDisk r' j id' _ _ _ =>
      exact Or.inr (hupdate r' j _ hfind hb fun _ _ => hK.disk _ nofun)
  | clearBlock r' j hcause =>
      by_cases hsame : r = r'
      · subst hsame
        obtain ⟨⟨key, hdeleted⟩, _⟩ := hcause hindexed
        exact Or.inl ⟨_, hdeleted, rfl⟩
      · exact Or.inr (hupdate r' j _ hfind hb fun hr _ => absurd hr hsame)
  | clearDisk r' hcause =>
      by_cases hsame : r = r'
      · subst hsame
        obtain ⟨id', hcleared⟩ := hcause hindexed
        exact Or.inl ⟨_, hcleared, rfl⟩
      · refine Or.inr ⟨hfind, b, ?_, hKb⟩
        rw [State.hasBlock_withItem, if_neg hsame]
        exact hb
  | setPinned r' pinned =>
      refine Or.inr ⟨hfind, b, ?_, hKb⟩
      rw [State.hasBlock_withItem]
      split
      next heq =>
        subst heq
        exact hb
      next => exact hb
  | @expire s _ id' r' released hfound hempty =>
      -- an item that holds something is not empty
      have hne : r ≠ r' := by
        rintro rfl
        have := List.all_eq_true.mp hempty b (State.mem_blocks_iff.mpr ⟨i, hb⟩)
        rw [hK.nonEmpty b hKb] at this
        cases this
      refine Or.inr ⟨?_, b, ?_, hKb⟩
      · refine (State.find_erase id' id).trans ?_
        rw [if_neg]
        · exact hfind
        · rintro rfl
          exact hne (Option.some.inj (hfind.symm.trans hfound))
      · show (s.withItem r' _).HasBlock r i b
        rw [State.hasBlock_withItem, if_neg hne]
        exact hb
  | @remove s _ id' r' released hfound =>
      have hid : id ≠ id' := fun heq => hremove (by rw [heq])
      have hne : r ≠ r' := by
        rintro rfl
        exact hid (hinv.wf.find_inj hfind hfound)
      refine Or.inr ⟨?_, b, ?_, hKb⟩
      · refine (State.find_erase id' id).trans ?_
        rw [if_neg hid]
        exact hfind
      · show (s.withItem r' _).HasBlock r i b
        rw [State.hasBlock_withItem, if_neg hne]
        exact hb
  | publish id' r' _ _ _ =>
      refine Or.inr ⟨?_, b, hb, hKb⟩
      rw [State.find_insert, if_neg fun heq => hpublish (by rw [heq])]
      exact hfind
  | _ => exact Or.inr ⟨hfind, b, hb, hKb⟩

theorem Runs.retain {K : BlockItem → Prop} (hK : Durable sc.D K) (h : Runs sc P x y)
    (hinv : Inv sc x) (hpublish : ¬ P (.publish id)) (hremove : ¬ P (.remove id))
    (hfind : x.state.find id = some r) (hheld : ∃ b, x.state.HasBlock r i b ∧ K b) :
    y.state.Harmed r ∨ (y.state.find id = some r ∧ ∃ b, y.state.HasBlock r i b ∧ K b) := by
  have hboth : Inv sc y ∧ (y.state.Harmed r ∨
      (y.state.find id = some r ∧ ∃ b, y.state.HasBlock r i b ∧ K b)) := by
    refine h.invariant (fun z => Inv sc z ∧ (z.state.Harmed r ∨
      (z.state.find id = some r ∧ ∃ b, z.state.HasBlock r i b ∧ K b))) ?_
      ⟨hinv, Or.inr ⟨hfind, hheld⟩⟩
    rintro a z w ha hstep ⟨hz, hcase⟩
    refine ⟨hstep.inv hz, ?_⟩
    rcases hcase with hharmed | ⟨hfind, hheld⟩
    · exact Or.inl (hharmed.mono hstep.static)
    · exact hstep.retain hK hz (fun heq => hpublish (heq ▸ ha)) (fun heq => hremove (heq ▸ ha))
        hfind hheld
  exact hboth.2

/-! ## Memory that is not filled -/

/-- A memory block of an item that the step does not fill was there before. -/
theorem Step.memBlock (hstep : Step sc a x y) (hr : r < x.state.itemCount) (hfill : a ≠ .fill r)
    {b : BlockItem} {block : MemBlockItem} (hb : y.state.HasBlock r i b)
    (hmem : b.memBlockItem = some block) :
    ∃ b₀, x.state.HasBlock r i b₀ ∧ b₀.memBlockItem = some block := by
  -- a block that was rewritten, but not its slices
  have hupdate : ∀ {s : State} (r' : ItemRef) (j : Nat) (f : BlockItem → BlockItem),
      (∀ b₀, (f b₀).memBlockItem = some block → b₀.memBlockItem = some block) →
      (s.withItem r' ((s.items r').updateBlock j f)).HasBlock r i b →
        ∃ b₀, s.HasBlock r i b₀ ∧ b₀.memBlockItem = some block := by
    intro s r' j f hf hb
    obtain ⟨b₀, hb₀, heq⟩ := State.hasBlock_updateBlock.mp hb
    refine ⟨b₀, hb₀, ?_⟩
    subst heq
    split at hmem
    next => exact hf b₀ hmem
    next => exact hmem
  cases hstep with
  | newItem =>
      refine ⟨b, ?_, hmem⟩
      unfold State.HasBlock at hb ⊢
      dsimp only at hb
      rwa [Function.update_of_ne (Nat.ne_of_lt hr)] at hb
  | collect heffect _ =>
      rw [heffect.eq] at hb
      exact ⟨b, hb, hmem⟩
  | attachMem r' j _ _ _ _ _ =>
      obtain ⟨b₀, hb₀, heq⟩ := State.hasBlock_updateBlock.mp hb
      rw [if_neg fun h => hfill (by rw [h.1])] at heq
      exact ⟨b, heq ▸ hb₀, hmem⟩
  | dropMem r' j _ =>
      apply hupdate r' j _ _ hb
      intro _ h
      cases h
  | attachDisk r' j _ _ _ _ =>
      apply hupdate r' j _ _ hb
      intro _ h
      exact h
  | clearBlock r' j _ =>
      apply hupdate r' j _ _ hb
      intro _ h
      cases h
  | clearDisk r' _ =>
      have hcase := State.hasBlock_withItem.mp hb
      split at hcase
      next heq =>
        subst heq
        obtain ⟨b₀, hb₀, rfl⟩ := State.clearDiskBlocks_getElem?.mp hcase
        exact ⟨b₀, hb₀, hmem⟩
      next => exact ⟨b, hcase, hmem⟩
  | setPinned r' _ | expire _ r' _ _ _ | remove _ r' _ _ =>
      have hcase := State.hasBlock_withItem.mp hb
      split at hcase
      next heq =>
        subst heq
        exact ⟨b, hcase, hmem⟩
      next => exact ⟨b, hcase, hmem⟩
  | _ => exact ⟨b, hb, hmem⟩

theorem Runs.memBlock (h : Runs sc P x y) (hr : r < x.state.itemCount) (hfill : ¬ P (.fill r))
    {b : BlockItem} {block : MemBlockItem} (hb : y.state.HasBlock r i b)
    (hmem : b.memBlockItem = some block) :
    ∃ b₀, x.state.HasBlock r i b₀ ∧ b₀.memBlockItem = some block := by
  have hall : r < y.state.itemCount ∧ ∀ b, y.state.HasBlock r i b → b.memBlockItem = some block →
      ∃ b₀, x.state.HasBlock r i b₀ ∧ b₀.memBlockItem = some block := by
    apply h.invariant (fun z => r < z.state.itemCount ∧ ∀ b, z.state.HasBlock r i b →
      b.memBlockItem = some block → ∃ b₀, x.state.HasBlock r i b₀ ∧ b₀.memBlockItem = some block)
    · intro a z w ha hstep hz
      refine ⟨Nat.lt_of_lt_of_le hz.1 hstep.static.itemCount, ?_⟩
      intro b hb hmem
      obtain ⟨b₀, hb₀, hmem₀⟩ := hstep.memBlock hz.1 (fun heq => hfill (heq ▸ ha)) hb hmem
      exact hz.2 b₀ hb₀ hmem₀
    · exact ⟨hr, fun b hb hmem => ⟨b, hb, hmem⟩⟩
  exact hall.2 b hb hmem

/-! ## Pinned items of a cache with disks -/

/-- A pinned item that no eviction from disk can reach, and none of whose blocks is
partly in memory only. The trace is that of the call so far. -/
structure Guarded (pf : Platform) (id : CacheId) (r : ItemRef) (s : State) : Prop where
  pinned : (s.items r).pinned = true
  untracked : ¬ s.DiskTracked pf id
  notEvicted : ∀ ids, .diskEvict ids ∈ s.trace → id ∉ ids
  notCleared : ∀ id', .diskCleared id' r ∉ s.trace
  notDeleted : ∀ key, .blockDeleted key r ∉ s.trace
  whole : ∀ i, ¬ s.Partial pf r i

/-- A flush of one of its blocks has failed in this call. -/
def State.FlushFailed (s : State) (r : ItemRef) : Prop :=
  ∃ key item, .flushFailed key r item ∈ s.trace

theorem State.FlushFailed.mono {s t : State} (h : s.FlushFailed r) (hstatic : Static s t) :
    t.FlushFailed r := by
  obtain ⟨key, item, hevent⟩ := h
  exact ⟨key, item, hstatic.mem_trace hevent⟩

theorem Guarded.harmed {s : State} (h : Guarded pf id r s) (hharmed : s.Harmed r) :
    s.FlushFailed r := by
  obtain ⟨e, he, hharms⟩ := hharmed
  cases e with
  | diskCleared id' r' => exact absurd (hharms ▸ he) (h.notCleared id')
  | blockDeleted key r' => exact absurd (hharms ▸ he) (h.notDeleted key)
  | flushFailed key r' item => exact ⟨key, item, hharms ▸ he⟩
  | _ => exact hharms.elim

theorem State.Partial.of_eq {s t : State} (h : t.Partial pf r i) (hitems : t.items r = s.items r)
    (hsegments : ∀ b block g, s.HasBlock r i b → b.memBlockItem = some block →
      some g ∈ block.slices → t.segments g = s.segments g) : s.Partial pf r i := by
  obtain ⟨b, block, hb, hmem, hdisk, hsize⟩ := h
  have hb' : s.HasBlock r i b := by
    unfold HasBlock at hb ⊢
    rwa [← hitems]
  have hmap : block.listSegments.map t.segments = block.listSegments.map s.segments :=
    List.map_congr_left fun g hg =>
      hsegments b block g hb' hmem ((mem_listSegments block.slices block.state g).mp hg)
  rw [hmap, hitems] at hsize
  exact ⟨b, block, hb', hmem, hdisk, hsize⟩

/-- After a block has been rewritten, only that block may be partial anew. -/
theorem State.Partial.updateBlock {s : State} {r' : ItemRef} {j : Nat} {f : BlockItem → BlockItem}
    (h : (s.withItem r' ((s.items r').updateBlock j f)).Partial pf r i) :
    s.Partial pf r i ∨ (r = r' ∧ j = i ∧ ∃ b, s.HasBlock r i b ∧
      (f b).memBlockItem ≠ none ∧ (f b).diskBlockItem = none) := by
  obtain ⟨b, block, hb, hmem, hdisk, hsize⟩ := h
  have hitem : ((s.withItem r' ((s.items r').updateBlock j f)).items r).size =
      (s.items r).size := by
    rw [withItem_items]
    split
    next heq => rw [heq]; rfl
    next => rfl
  obtain ⟨b₀, hb₀, rfl⟩ := hasBlock_updateBlock.mp hb
  split at hmem
  next heq =>
    rw [if_pos heq] at hdisk
    exact Or.inr ⟨heq.1, heq.2, b₀, hb₀, by rw [hmem]; nofun, hdisk⟩
  next heq =>
    rw [if_neg heq] at hdisk
    refine Or.inl ⟨b₀, block, hb₀, hmem, hdisk, ?_⟩
    unfold CacheItem.blockSize at hsize ⊢
    rwa [hitem] at hsize

/-- A block is rewritten, and it does not come to be in memory alone. -/
theorem Guarded.updateBlock {s : State} {r' : ItemRef} {j : Nat} {f : BlockItem → BlockItem}
    (h : Guarded pf id r s)
    (hdisk : r = r' → ∀ b, s.HasBlock r j b → (f b).memBlockItem ≠ none →
      (f b).diskBlockItem ≠ none) :
    Guarded pf id r (s.withItem r' ((s.items r').updateBlock j f)) := by
  refine { h with pinned := ?_, whole := fun i hpart => ?_ }
  · rw [State.withItem_items]
    split
    next heq => exact heq ▸ h.pinned
    next => exact h.pinned
  · rcases hpart.updateBlock with hpart | ⟨hr, rfl, b, hb, hmem, hnone⟩
    · exact h.whole i hpart
    · exact hdisk hr b hb hmem hnone

theorem Guarded.withReleased {s : State} {r' : ItemRef} (h : Guarded pf id r s) (released : Bool) :
    Guarded pf id r (s.withItem r' { s.items r' with released }) := by
  refine { h with pinned := ?_, whole := fun i hpart => h.whole i ?_ }
  · rw [State.withItem_items]
    split
    next heq => exact heq ▸ h.pinned
    next => exact h.pinned
  · obtain ⟨b, block, hb, hmem, hdisk, hsize⟩ := hpart
    rw [State.hasBlock_withItem] at hb
    rw [State.withItem_items] at hsize
    split at hb
    next heq =>
      subst heq
      rw [if_pos rfl] at hsize
      exact ⟨b, block, hb, hmem, hdisk, hsize⟩
    next heq =>
      rw [if_neg heq] at hsize
      exact ⟨b, block, hb, hmem, hdisk, hsize⟩

/-- One more event, which does not harm the item. -/
theorem Guarded.append {s t : State} {e : Event} (h : Guarded pf id r s) (hitems : t.items = s.items)
    (hsegments : t.segments = s.segments) (htrace : t.trace = s.trace ++ [e])
    (huntracked : ¬ t.DiskTracked pf id) (hevict : ∀ ids, e = .diskEvict ids → id ∉ ids)
    (hclear : ∀ id', e ≠ .diskCleared id' r) (hdelete : ∀ key, e ≠ .blockDeleted key r) :
    Guarded pf id r t := by
  refine ⟨?_, huntracked, fun ids hmem => ?_, fun id' hmem => ?_, fun key hmem => ?_,
    fun i hpart => ?_⟩
  · rw [hitems]
    exact h.pinned
  · rw [htrace, List.mem_append, List.mem_singleton] at hmem
    exact hmem.elim (h.notEvicted ids) fun heq => hevict ids heq.symm
  · rw [htrace, List.mem_append, List.mem_singleton] at hmem
    exact hmem.elim (h.notCleared id') fun heq => hclear id' heq.symm
  · rw [htrace, List.mem_append, List.mem_singleton] at hmem
    exact hmem.elim (h.notDeleted key) fun heq => hdelete key heq.symm
  · exact h.whole i (hpart.of_eq (by rw [hitems]) fun _ _ _ _ _ _ => by rw [hsegments])

theorem Guarded.of_eq {s t : State} (h : Guarded pf id r s) (hitem : t.items r = s.items r)
    (hsegments : t.segments = s.segments) (htrace : t.trace = s.trace)
    (htracker : t.diskTracker = s.diskTracker) : Guarded pf id r t := by
  refine ⟨by rw [hitem]; exact h.pinned, ?_, by rw [htrace]; exact h.notEvicted,
    by rw [htrace]; exact h.notCleared, by rw [htrace]; exact h.notDeleted, fun i hpart => ?_⟩
  · unfold State.DiskTracked
    rw [htracker]
    exact h.untracked
  · exact h.whole i (hpart.of_eq hitem fun _ _ _ _ _ _ => by rw [hsegments])

theorem Step.guarded (hstep : Step sc a x y) (hinv : Inv sc x) (hpublish : a ≠ .publish id)
    (hpin : a ≠ .pin r) (hfind : x.state.find id = some r) (hg : Guarded pf id r x.state)
    (hok : ¬ y.state.FlushFailed r) : Guarded pf id r y.state := by
  have hindexed : x.state.Indexed r := ⟨id, hfind⟩
  have hharmless : ¬ x.state.Harmed r := fun h => hok ((hg.harmed h).mono hstep.static)
  have hlt := hinv.wf.indexed_lt hfind
  cases hstep with
  | emit e hplain =>
      refine hg.append rfl rfl rfl hg.untracked ?_ ?_ ?_
      · rintro ids rfl
        exact hplain.elim
      · rintro id' rfl
        exact hplain.elim
      · rintro key rfl
        exact hplain.elim
  | clearing id' r' ids hfound hevicted hmem =>
      refine hg.append rfl rfl rfl hg.untracked (fun _ => nofun) ?_ fun _ => nofun
      rintro id'' heq
      cases heq
      rw [hinv.wf.find_inj hfound hfind] at hmem
      exact hg.notEvicted ids hevicted hmem
  | deleting key r' hcause =>
      refine hg.append rfl rfl rfl hg.untracked (fun _ => nofun) (fun _ => nofun) ?_
      rintro key' heq
      cases heq
      exact hg.whole _ (hcause hg.pinned)
  | newItem =>
      exact hg.of_eq (Function.update_of_ne (Nat.ne_of_lt hlt) ..) rfl rfl rfl
  | @newSegment s g seg memSpace _ =>
      refine { hg with whole := fun i hpart => hg.whole i (hpart.of_eq rfl ?_) }
      intro b block g hb hmem hslice
      exact Function.update_of_ne (Nat.ne_of_lt (hinv.wf.segment_lt g
        (hinv.wf.mem_alive (hinv.wf.indexed_live hfind) hb hmem g hslice))) ..
  | collect heffect _ =>
      have heq := heffect.eq
      exact hg.of_eq (by rw [heq]) (by rw [heq]) (by rw [heq]) (by rw [heq])
  | memTrack | memEvict =>
      exact hg.append rfl rfl rfl hg.untracked (fun _ => nofun) (fun _ => nofun) fun _ => nofun
  | diskTrack id' size _ hunpinned =>
      have hne : id ≠ id' := by
        rintro rfl
        exact Bool.false_ne_true ((hunpinned r hfind).symm.trans hg.pinned)
      refine hg.append rfl rfl rfl (fun h => ?_) (fun _ => nofun) (fun _ => nofun) fun _ => nofun
      exact (((hinv.wf.diskTracker.add id' size).2.1 id).mp h).elim hne hg.untracked
  | diskUntrack id' _ =>
      refine { hg with untracked := fun h => hg.untracked ?_ }
      exact (((hinv.wf.diskTracker.remove id').2.1 id).mp h).1
  | touchDisk diskTracker _ _ htracked =>
      exact { hg with untracked := fun h => hg.untracked ((htracked id).mp h) }
  | diskEvict ids diskTracker _ hidle htracked _ =>
      refine hg.append rfl rfl rfl (fun h => hg.untracked ((htracked id).mp h).1) ?_
        (fun _ => nofun) fun _ => nofun
      rintro ids' heq hmem
      cases heq
      exact hg.untracked (hidle id hmem).tracked
  | attachMem r' j block _ _ hcause _ =>
      refine hg.updateBlock fun hr b hb _ => ?_
      subst hr
      obtain ⟨b₀, hb₀, hdisk⟩ := (hcause hindexed).2.resolve_right hharmless
      obtain rfl : b₀ = b := Option.some.inj (hb₀.symm.trans hb)
      exact hdisk
  | dropMem r' j _ => exact hg.updateBlock fun _ _ _ hmem => absurd rfl hmem
  | attachDisk r' j id' _ _ _ => exact hg.updateBlock fun _ _ _ _ => nofun
  | clearBlock r' j hcause => exact hg.updateBlock fun _ _ _ hmem => absurd rfl hmem
  | clearDisk r' hcause =>
      have hne : r ≠ r' := by
        rintro rfl
        obtain ⟨id', hcleared⟩ := hcause hindexed
        exact hg.notCleared id' hcleared
      exact hg.of_eq (by rw [State.withItem_items, if_neg hne]) rfl rfl rfl
  | setPinned r' pinned =>
      have hne : r ≠ r' := fun heq => hpin (by rw [heq])
      exact hg.of_eq (by rw [State.withItem_items, if_neg hne]) rfl rfl rfl
  | pinDisk id' _ _ _ =>
      refine { hg with untracked := fun h => hg.untracked ?_ }
      exact (((hinv.wf.diskTracker.remove id').2.1 id).mp h).1
  | @expire s _ _ r' released _ _ | @remove s _ _ r' released _ =>
      exact (hg.withReleased released).of_eq rfl rfl rfl rfl
  | idle | newBlock | hold | leave | touchMem | memUntrack | pinMem | publish | write | settle =>
      exact hg.of_eq rfl rfl rfl rfl

/-- What a pinned item holds it keeps, unless a flush of one of its blocks fails. -/
theorem Runs.guarded {K : BlockItem → Prop} (hK : Durable sc.D K) (h : Runs sc P x y)
    (hinv : Inv sc x) (hpublish : ¬ P (.publish id)) (hremove : ¬ P (.remove id))
    (hpin : ¬ P (.pin r)) (hfind : x.state.find id = some r) (hg : Guarded pf id r x.state)
    (hheld : ∃ b, x.state.HasBlock r i b ∧ K b) :
    y.state.FlushFailed r ∨ (Guarded pf id r y.state ∧ y.state.find id = some r ∧
      ∃ b, y.state.HasBlock r i b ∧ K b) := by
  have hboth : Inv sc y ∧ (y.state.FlushFailed r ∨ (Guarded pf id r y.state ∧
      y.state.find id = some r ∧ ∃ b, y.state.HasBlock r i b ∧ K b)) := by
    refine h.invariant (fun z => Inv sc z ∧ (z.state.FlushFailed r ∨ (Guarded pf id r z.state ∧
      z.state.find id = some r ∧ ∃ b, z.state.HasBlock r i b ∧ K b))) ?_
      ⟨hinv, Or.inr ⟨hg, hfind, hheld⟩⟩
    rintro a z w ha hstep ⟨hz, hcase⟩
    refine ⟨hstep.inv hz, ?_⟩
    rcases hcase with hfailed | ⟨hg, hfind, hheld⟩
    · exact Or.inl (hfailed.mono hstep.static)
    · by_cases hfailed : w.state.FlushFailed r
      · exact Or.inl hfailed
      · have hne : a ≠ .publish id := fun heq => hpublish (heq ▸ ha)
        have hg' := hstep.guarded hz hne (fun heq => hpin (heq ▸ ha)) hfind hg hfailed
        rcases hstep.retain hK hz hne (fun heq => hremove (heq ▸ ha)) hfind hheld with h | h
        · exact absurd (hg'.harmed h) hfailed
        · exact Or.inr ⟨hg', h⟩
  exact hboth.2

/-! ## Pinned items of a cache without disks -/

theorem State.Locked.updateBlock {s : State} {r' : ItemRef} {j : Nat} {f : BlockItem → BlockItem}
    (h : s.Locked r) : (s.withItem r' ((s.items r').updateBlock j f)).Locked r := by
  refine ⟨?_, h.2⟩
  rw [withItem_items]
  split
  next heq => exact heq ▸ h.1
  next => exact h.1

/-- A locked item keeps its memory blocks as they are. -/
theorem Step.locked {block : MemBlockItem} (hstep : Step sc a x y) (hinv : Inv sc x)
    (hpublish : a ≠ .publish id) (hremove : a ≠ .remove id) (hpin : a ≠ .pin r)
    (hfind : x.state.find id = some r) (hlocked : x.state.Locked r)
    (hheld : ∃ b, x.state.HasBlock r i b ∧ b.memBlockItem = some block) :
    y.state.find id = some r ∧ y.state.Locked r ∧
      ∃ b, y.state.HasBlock r i b ∧ b.memBlockItem = some block := by
  obtain ⟨b, hb, hmem⟩ := hheld
  have hindexed : x.state.Indexed r := ⟨id, hfind⟩
  have hlive := hinv.wf.indexed_live hfind
  have hdiskless : ∀ {b}, x.state.hasDiskLayer = true → b := fun h =>
    (Bool.false_ne_true (hlocked.2.symm.trans h)).elim
  -- a rewritten block of another item
  have hupdate : ∀ (r' : ItemRef) (j : Nat) (f : BlockItem → BlockItem), r ≠ r' →
      (x.state.withItem r' ((x.state.items r').updateBlock j f)).find id = some r ∧
        (x.state.withItem r' ((x.state.items r').updateBlock j f)).Locked r ∧
          ∃ b, (x.state.withItem r' ((x.state.items r').updateBlock j f)).HasBlock r i b ∧
            b.memBlockItem = some block := by
    refine fun r' j f hne => ⟨hfind, hlocked.updateBlock, b, ?_, hmem⟩
    exact State.hasBlock_updateBlock.mpr ⟨b, hb, by rw [if_neg fun h => hne h.1]⟩
  -- an item replaced by one that differs in its bits only
  have hitem : ∀ {s t : State} (r' : ItemRef) (item : CacheItem), s.Locked r → s.HasBlock r i b →
      t.items = (s.withItem r' item).items → t.options = s.options →
      (r = r' → item.blocks = (s.items r').blocks ∧ item.pinned = (s.items r').pinned) →
        t.Locked r ∧ t.HasBlock r i b := by
    intro s t r' item hlocked hb hitems hoptions hsame
    have heq := congrFun hitems r
    rw [State.withItem_items] at heq
    unfold State.Locked State.hasDiskLayer State.HasBlock at *
    rw [heq, hoptions]
    split
    next h =>
      subst h
      rw [(hsame rfl).1, (hsame rfl).2]
      exact ⟨hlocked, hb⟩
    next => exact ⟨hlocked, hb⟩
  cases hstep with
  | @newItem s _ cacheKey size expireTime _ _ _ =>
      have hne : r ≠ s.itemCount := Nat.ne_of_lt (hinv.wf.indexed_lt hfind)
      obtain ⟨h, h'⟩ := hitem (t := _) s.itemCount (.new pf.flags cacheKey size expireTime) hlocked
        hb rfl rfl fun heq => absurd heq hne
      exact ⟨hfind, h, b, h', hmem⟩
  | collect heffect _ =>
      rw [heffect.eq]
      exact ⟨hfind, hlocked, b, hb, hmem⟩
  | attachMem r' j _ _ _ hcause _ =>
      exact hupdate r' j _ fun heq => hdiskless (hcause (heq ▸ hindexed)).1
  | dropMem r' j hcause => exact hupdate r' j _ fun heq => hdiskless (hcause (heq ▸ hindexed)).1
  | attachDisk r' j id' halive _ _ =>
      exact hdiskless (hinv.wf.hasDiskLayer halive)
  | clearBlock r' j hcause =>
      refine hupdate r' j _ fun heq => ?_
      subst heq
      exact (hcause hindexed).2 hlocked
  | @clearDisk s _ r' hcause =>
      refine ⟨hfind, ?_⟩
      by_cases heq : r = r'
      · subst heq
        refine ⟨⟨?_, hlocked.2⟩, { b with diskBlockItem := none }, ?_, hmem⟩
        · rw [State.withItem_items, if_pos rfl]
          exact hlocked.1
        · rw [State.hasBlock_withItem, if_pos rfl]
          exact State.clearDiskBlocks_getElem?.mpr ⟨b, hb, rfl⟩
      · obtain ⟨h, h'⟩ := hitem (t := _) r' (s.items r').clearDiskBlocks hlocked hb rfl rfl
          fun h => absurd h heq
        exact ⟨h, b, h', hmem⟩
  | @setPinned s _ r' pinned =>
      have hne : r ≠ r' := fun heq => hpin (by rw [heq])
      obtain ⟨h, h'⟩ := hitem (t := _) r' { s.items r' with pinned } hlocked hb rfl rfl
        fun h => absurd h hne
      exact ⟨hfind, h, b, h', hmem⟩
  | @expire s _ id' r' released hfound hempty =>
      have hne : r ≠ r' := by
        rintro rfl
        have := List.all_eq_true.mp hempty b (State.mem_blocks_iff.mpr ⟨i, hb⟩)
        simp [BlockItem.isEmpty, hmem] at this
      obtain ⟨h, h'⟩ := hitem (t := _) r' { s.items r' with released } hlocked hb rfl rfl
        fun h => absurd h hne
      refine ⟨(State.find_erase id' id).trans ?_, h, b, h', hmem⟩
      rw [if_neg]
      · exact hfind
      · rintro rfl
        exact hne (Option.some.inj (hfind.symm.trans hfound))
  | @remove s _ id' r' released hfound =>
      have hid : id ≠ id' := fun heq => hremove (by rw [heq])
      obtain ⟨h, h'⟩ := hitem (t := _) r' { s.items r' with released } hlocked hb rfl rfl
        fun _ => ⟨rfl, rfl⟩
      refine ⟨(State.find_erase id' id).trans ?_, h, b, h', hmem⟩
      rw [if_neg hid]
      exact hfind
  | publish id' r' _ _ _ =>
      refine ⟨?_, hlocked, b, hb, hmem⟩
      rw [State.find_insert, if_neg fun heq => hpublish (by rw [heq])]
      exact hfind
  | _ => exact ⟨hfind, hlocked, b, hb, hmem⟩

theorem Runs.locked {block : MemBlockItem} (h : Runs sc P x y) (hinv : Inv sc x)
    (hpublish : ¬ P (.publish id)) (hremove : ¬ P (.remove id)) (hpin : ¬ P (.pin r))
    (hfind : x.state.find id = some r) (hlocked : x.state.Locked r)
    (hheld : ∃ b, x.state.HasBlock r i b ∧ b.memBlockItem = some block) :
    y.state.find id = some r ∧ y.state.Locked r ∧
      ∃ b, y.state.HasBlock r i b ∧ b.memBlockItem = some block := by
  have hboth : Inv sc y ∧ y.state.find id = some r ∧ y.state.Locked r ∧
      ∃ b, y.state.HasBlock r i b ∧ b.memBlockItem = some block := by
    refine h.invariant (fun z => Inv sc z ∧ z.state.find id = some r ∧ z.state.Locked r ∧
      ∃ b, z.state.HasBlock r i b ∧ b.memBlockItem = some block) ?_
      ⟨hinv, hfind, hlocked, hheld⟩
    rintro a z w ha hstep ⟨hz, hfind, hlocked, hheld⟩
    exact ⟨hstep.inv hz, hstep.locked hz (fun heq => hpublish (heq ▸ ha))
      (fun heq => hremove (heq ▸ ha)) (fun heq => hpin (heq ▸ ha)) hfind hlocked hheld⟩
  exact hboth.2

/-! ## Keys that a call has tracked -/

namespace Event

def TracksMem (key : BlockKey) : Event → Prop
  | .memTrack key' => key' = key
  | _ => False

/-- A pass of the memory policy gives up the block key. -/
def EvictsMem (key : BlockKey) : Event → Prop
  | .memEvict keys => key ∈ keys
  | _ => False

def TracksDisk (id : CacheId) : Event → Prop
  | .diskTrack id' => id' = id
  | _ => False

def EvictsDisk (id : CacheId) : Event → Prop
  | .diskEvict ids => id ∈ ids
  | _ => False

/-- A plain event says nothing about the policies. -/
theorem Plain.silentMem {e : Event} (h : e.Plain) (key : BlockKey) :
    ¬ e.TracksMem key ∧ ¬ e.EvictsMem key := by
  cases e with
  | memTrack | memEvict => exact h.elim
  | _ => exact ⟨fun h => h, fun h => h⟩

theorem Plain.silentDisk {e : Event} (h : e.Plain) (id : CacheId) :
    ¬ e.TracksDisk id ∧ ¬ e.EvictsDisk id := by
  cases e with
  | diskTrack | diskEvict => exact h.elim
  | _ => exact ⟨fun h => h, fun h => h⟩

theorem TracksDisk.eq {e : Event} {id : CacheId} (h : e.TracksDisk id) : e = .diskTrack id := by
  cases e with
  | diskTrack => exact congrArg Event.diskTrack h
  | _ => exact h.elim

theorem EvictsMem.eq {e : Event} {key : BlockKey} (h : e.EvictsMem key) :
    ∃ keys, e = .memEvict keys ∧ key ∈ keys := by
  cases e with
  | memEvict keys => exact ⟨keys, rfl, h⟩
  | _ => exact h.elim

theorem EvictsDisk.eq {e : Event} {id : CacheId} (h : e.EvictsDisk id) :
    ∃ ids, e = .diskEvict ids ∧ id ∈ ids := by
  cases e with
  | diskEvict ids => exact ⟨ids, rfl, h⟩
  | _ => exact h.elim

theorem TracksMem.not_evicts {e : Event} {key : BlockKey} (h : e.TracksMem key) :
    ¬ e.EvictsMem key := by
  cases e with
  | memTrack => exact fun h => h
  | _ => exact h.elim

theorem TracksDisk.not_evicts {e : Event} {id : CacheId} (h : e.TracksDisk id) :
    ¬ e.EvictsDisk id := by
  cases e with
  | diskTrack => exact fun h => h
  | _ => exact h.elim

end Event

/-- The block keys that the call has tracked and an eviction of the same call has then
taken back. -/
def State.MemLost (s : State) : Set BlockKey :=
  {key | ∃ keys, key ∈ keys ∧ [.memTrack key, .memEvict keys].Sublist s.trace}

/-- The cache ids of this kind that have not been tracked again since. -/
def State.DiskLost (s : State) : Set CacheId :=
  {id | ∃ ids before after, s.trace = before ++ .diskEvict ids :: after ∧ id ∈ ids ∧
    .diskTrack id ∈ before ∧ .diskTrack id ∉ after}

/-- The call has tracked the block key, and it is tracked unless it has been lost. -/
def State.MemKept (pf : Platform) (s : State) (key : BlockKey) : Prop :=
  .memTrack key ∈ s.trace ∧ (s.MemTracked pf key ∨ key ∈ s.MemLost)

def State.DiskKept (pf : Platform) (s : State) (id : CacheId) : Prop :=
  .diskTrack id ∈ s.trace ∧ (s.DiskTracked pf id ∨ id ∈ s.DiskLost)

/-- What a step does to an entry of the memory policy: nothing, or what the event says that it
adds to the trace. -/
theorem Step.memPolicy {key : BlockKey} (hstep : Step sc a x y) (hinv : Inv sc x)
    (huntrack : a ≠ .untrack key.cacheId) (hpin : ∀ r, a ≠ .pin r) :
    (y.state.trace = x.state.trace ∧ (y.state.MemTracked pf key ↔ x.state.MemTracked pf key)) ∨
      ∃ e, y.state.trace = x.state.trace ++ [e] ∧ (y.state.MemTracked pf key ↔
        e.TracksMem key ∨ x.state.MemTracked pf key ∧ ¬ e.EvictsMem key) := by
  have hsilent : ∀ {e : Event} {c : Prop}, ¬ e.TracksMem key ∧ ¬ e.EvictsMem key →
      (c ↔ e.TracksMem key ∨ c ∧ ¬ e.EvictsMem key) := by
    intro e c h
    simp [h.1, h.2]
  cases hstep with
  | emit e hplain => exact Or.inr ⟨e, rfl, hsilent (hplain.silentMem key)⟩
  | clearing | deleting | diskTrack | diskEvict =>
      exact Or.inr ⟨_, rfl, hsilent ⟨fun h => h, fun h => h⟩⟩
  | collect heffect _ =>
      rw [heffect.eq]
      exact Or.inl ⟨rfl, Iff.rfl⟩
  | touchMem _ _ _ hsame => exact Or.inl ⟨rfl, hsame key⟩
  | memTrack key' size _ =>
      refine Or.inr ⟨_, rfl, ((hinv.wf.memTracker.add key' size).2.1 key).trans ?_⟩
      exact or_congr eq_comm (and_iff_left fun h => h).symm
  | memUntrack key' _ =>
      refine Or.inl ⟨rfl, ((hinv.wf.memTracker.remove key').2.1 key).trans (and_iff_left ?_)⟩
      rintro rfl
      exact huntrack rfl
  | memEvict keys _ _ _ hafter _ =>
      exact Or.inr ⟨_, rfl, (hafter key).trans (or_iff_right fun h => h).symm⟩
  | setPinned r _ => exact absurd rfl (hpin r)
  | pinMem _ r _ _ => exact absurd rfl (hpin r)
  | _ => exact Or.inl ⟨rfl, Iff.rfl⟩

theorem Step.memKept {key : BlockKey} (hstep : Step sc a x y) (hinv : Inv sc x)
    (huntrack : a ≠ .untrack key.cacheId) (hpin : ∀ r, a ≠ .pin r)
    (hkept : x.state.MemKept pf key) : y.state.MemKept pf key := by
  refine ⟨hstep.static.mem_trace hkept.1, ?_⟩
  rcases hkept.2 with htracked | ⟨keys, hkey, hsub⟩
  · rcases hstep.memPolicy hinv huntrack hpin with ⟨_, hsame⟩ | ⟨e, htrace, hnext⟩
    · exact Or.inl (hsame.mpr htracked)
    · by_cases hevicts : e.EvictsMem key
      · obtain ⟨keys, rfl, hkey⟩ := hevicts.eq
        refine Or.inr ⟨keys, hkey, ?_⟩
        rw [htrace]
        exact List.Sublist.append (List.singleton_sublist.mpr hkept.1) (List.Sublist.refl [_])
      · exact Or.inl (hnext.mpr (Or.inr ⟨htracked, hevicts⟩))
  · obtain ⟨events, htrace⟩ := hstep.static.trace
    refine Or.inr ⟨keys, hkey, ?_⟩
    rw [htrace]
    exact hsub.trans (List.sublist_append_left _ _)

theorem Runs.memKept {key : BlockKey} (h : Runs sc P x y) (hinv : Inv sc x)
    (huntrack : ¬ P (.untrack key.cacheId)) (hpin : ∀ r, ¬ P (.pin r))
    (hkept : x.state.MemKept pf key) : y.state.MemKept pf key := by
  have hboth : Inv sc y ∧ y.state.MemKept pf key := by
    refine h.invariant (fun z => Inv sc z ∧ z.state.MemKept pf key) ?_ ⟨hinv, hkept⟩
    rintro a z w ha hstep ⟨hz, hkept⟩
    exact ⟨hstep.inv hz, hstep.memKept hz (fun heq => huntrack (heq ▸ ha))
      (fun r heq => hpin r (heq ▸ ha)) hkept⟩
  exact hboth.2

theorem Step.diskPolicy (hstep : Step sc a x y) (hinv : Inv sc x) (huntrack : a ≠ .untrack id)
    (hpin : ∀ r, a ≠ .pin r) :
    (y.state.trace = x.state.trace ∧ (y.state.DiskTracked pf id ↔ x.state.DiskTracked pf id)) ∨
      ∃ e, y.state.trace = x.state.trace ++ [e] ∧ (y.state.DiskTracked pf id ↔
        e.TracksDisk id ∨ x.state.DiskTracked pf id ∧ ¬ e.EvictsDisk id) := by
  have hsilent : ∀ {e : Event} {c : Prop}, ¬ e.TracksDisk id ∧ ¬ e.EvictsDisk id →
      (c ↔ e.TracksDisk id ∨ c ∧ ¬ e.EvictsDisk id) := by
    intro e c h
    simp [h.1, h.2]
  cases hstep with
  | emit e hplain => exact Or.inr ⟨e, rfl, hsilent (hplain.silentDisk id)⟩
  | clearing | deleting | memTrack | memEvict =>
      exact Or.inr ⟨_, rfl, hsilent ⟨fun h => h, fun h => h⟩⟩
  | collect heffect _ =>
      rw [heffect.eq]
      exact Or.inl ⟨rfl, Iff.rfl⟩
  | touchDisk _ _ _ hsame => exact Or.inl ⟨rfl, hsame id⟩
  | diskTrack id' size _ _ =>
      refine Or.inr ⟨_, rfl, ((hinv.wf.diskTracker.add id' size).2.1 id).trans ?_⟩
      exact or_congr eq_comm (and_iff_left fun h => h).symm
  | diskUntrack id' _ =>
      refine Or.inl ⟨rfl, ((hinv.wf.diskTracker.remove id').2.1 id).trans (and_iff_left ?_)⟩
      rintro rfl
      exact huntrack rfl
  | diskEvict ids _ _ _ hafter _ =>
      exact Or.inr ⟨_, rfl, (hafter id).trans (or_iff_right fun h => h).symm⟩
  | setPinned r _ => exact absurd rfl (hpin r)
  | pinDisk _ r _ _ => exact absurd rfl (hpin r)
  | _ => exact Or.inl ⟨rfl, Iff.rfl⟩

theorem Step.diskKept (hstep : Step sc a x y) (hinv : Inv sc x) (huntrack : a ≠ .untrack id)
    (hpin : ∀ r, a ≠ .pin r) (hkept : x.state.DiskKept pf id) : y.state.DiskKept pf id := by
  refine ⟨hstep.static.mem_trace hkept.1, ?_⟩
  rcases hstep.diskPolicy hinv huntrack hpin with ⟨hsametrace, hsame⟩ | ⟨e, hlast, hnext⟩
  · unfold State.DiskLost
    rw [hsametrace]
    exact hkept.2.imp_left hsame.mpr
  by_cases htracks : e.TracksDisk id
  · exact Or.inl (hnext.mpr (Or.inl htracks))
  rcases hkept.2 with htracked | ⟨ids, before, after, htrace, hid, hbefore, hafter⟩
  · by_cases hevicts : e.EvictsDisk id
    · obtain ⟨ids, rfl, hid⟩ := hevicts.eq
      exact Or.inr ⟨ids, x.state.trace, [], hlast, hid, hkept.1, List.not_mem_nil⟩
    · exact Or.inl (hnext.mpr (Or.inr ⟨htracked, hevicts⟩))
  · -- a later event is at the end
    refine Or.inr ⟨ids, before, after ++ [e], ?_, hid, hbefore, ?_⟩
    · rw [hlast, htrace, List.append_assoc, List.cons_append]
    · rw [List.mem_append, List.mem_singleton, not_or]
      refine ⟨hafter, ?_⟩
      rintro rfl
      exact htracks rfl

theorem Runs.diskKept (h : Runs sc P x y) (hinv : Inv sc x) (huntrack : ¬ P (.untrack id))
    (hpin : ∀ r, ¬ P (.pin r)) (hkept : x.state.DiskKept pf id) : y.state.DiskKept pf id := by
  have hboth : Inv sc y ∧ y.state.DiskKept pf id := by
    refine h.invariant (fun z => Inv sc z ∧ z.state.DiskKept pf id) ?_ ⟨hinv, hkept⟩
    rintro a z w ha hstep ⟨hz, hkept⟩
    exact ⟨hstep.inv hz, hstep.diskKept hz (fun heq => huntrack (heq ▸ ha))
      (fun r heq => hpin r (heq ▸ ha)) hkept⟩
  exact hboth.2

end StarCache
