import StarCache.Transition.Operations

/-!
# Removal and disk eviction

`_remove_cache_item`, eviction from disk and the allocation of disk blocks as runs
of the transition system. All obligations that are opened are closed again.
-/

namespace StarCache

open Prog MachineInt

variable {pf : Platform} {sc : Scenario pf} {P : Action → Prop} {s t : State} {g : Ghost}

/-! ## Obligations about one item -/

/-- An item that need not be filled: it is not in the index, or holds something. -/
theorem State.NonEmpty.drop {hollow : Set ItemRef} {r : ItemRef}
    (h : s.NonEmpty (insert r hollow))
    (hr : ∀ id, s.find id = some r → (∃ i b, s.HasBlock r i b ∧ b.isEmpty = false) ∨
      ∃ key item, .flushFailed key r item ∈ s.trace ∧ Drained key item) : s.NonEmpty hollow := by
  intro id r' hfind
  rcases h id r' hfind with hne | hin | hevent
  · exact Or.inl hne
  · rcases hin with rfl | hin
    · exact (hr id hfind).imp_right Or.inr
    · exact Or.inr (Or.inl hin)
  · exact Or.inr (Or.inr hevent)

theorem Ran.fill {s₀ : State} {g₀ : Ghost} {r : ItemRef}
    (h : Ran sc P s₀ g₀ s { g with hollow := insert r g.hollow }) (hinv : Inv sc ⟨s₀, g₀⟩)
    (hr : ∀ id, s.find id = some r → (∃ i b, s.HasBlock r i b ∧ b.isEmpty = false) ∨
      ∃ key item, .flushFailed key r item ∈ s.trace ∧ Drained key item) :
    Ran sc P s₀ g₀ s g :=
  h.settle (h.inv hinv).memEvictable (h.inv hinv).diskEvictable ((h.inv hinv).nonEmpty.drop hr)

theorem State.MemEvictable.mono {owed owed' : Set BlockKey} (h : s.MemEvictable pf owed)
    (hsub : owed ⊆ owed') : s.MemEvictable pf owed' := fun id r i b hfind hb hmem hlocked =>
  (h id r i b hfind hb hmem hlocked).imp_right (hsub ·)

theorem State.DiskEvictable.mono {owed owed' : Set CacheId} (h : s.DiskEvictable pf owed)
    (hsub : owed ⊆ owed') : s.DiskEvictable pf owed' := fun id r i b hfind hb hdisk hpinned =>
  (h id r i b hfind hb hdisk hpinned).imp_right (Or.imp_left (hsub ·))

/-- Nothing is owed for ids that are not in the index. -/
theorem State.MemEvictable.hidden {owed owed' : Set BlockKey} (h : s.MemEvictable pf owed)
    (hsub : ∀ key ∈ owed, key ∈ owed' ∨ s.find key.cacheId = none) : s.MemEvictable pf owed' := by
  intro id r i b hfind hb hmem hlocked
  rcases h id r i b hfind hb hmem hlocked with htracked | howed
  · exact Or.inl htracked
  · refine (hsub _ howed).elim Or.inr fun hnone => ?_
    rw [hfind] at hnone
    cases hnone

theorem State.DiskEvictable.hidden {owed owed' : Set CacheId} (h : s.DiskEvictable pf owed)
    (hsub : ∀ id ∈ owed, id ∈ owed' ∨ s.find id = none) : s.DiskEvictable pf owed' := by
  intro id r i b hfind hb hdisk hpinned
  rcases h id r i b hfind hb hdisk hpinned with htracked | howed | hlost
  · exact Or.inl htracked
  · refine (hsub _ howed).elim (fun h => Or.inr (Or.inl h)) fun hnone => ?_
    rw [hfind] at hnone
    cases hnone
  · exact Or.inr (Or.inr hlost)

theorem State.DiskEvictable.drop {owed : Set CacheId} {id : CacheId}
    (h : s.DiskEvictable pf (insert id owed))
    (hid : ∀ r i b, s.find id = some r → s.HasBlock r i b → b.diskBlockItem ≠ none →
      (s.items r).pinned = false → s.DiskTracked pf id) : s.DiskEvictable pf owed := by
  intro id' r i b hfind hb hdisk hpinned
  rcases h id' r i b hfind hb hdisk hpinned with htracked | hin | hlost
  · exact Or.inl htracked
  · rcases hin with rfl | hin
    · exact Or.inl (hid r i b hfind hb hdisk hpinned)
    · exact Or.inr (Or.inl hin)
  · exact Or.inr (Or.inr hlost)

theorem State.MemEvictable.drop {owed : Set BlockKey} {key : BlockKey}
    (h : s.MemEvictable pf (insert key owed))
    (hkey : ∀ r b, s.find key.cacheId = some r → s.HasBlock r key.blockIndex b →
      b.memBlockItem ≠ none → ¬ s.Locked r → s.MemTracked pf key) : s.MemEvictable pf owed := by
  intro id r i b hfind hb hmem hlocked
  rcases h id r i b hfind hb hmem hlocked with htracked | hin
  · exact Or.inl htracked
  · rcases hin with rfl | hin
    · exact Or.inl (hkey r b hfind hb hmem hlocked)
    · exact Or.inr hin

/-! ## Deleters -/

section Collect

variable (h : Collects s t)

include h

theorem Collects.hasBlock {r : ItemRef} {i : Nat} {b : BlockItem} :
    t.HasBlock r i b ↔ s.HasBlock r i b := by
  rw [h.eq]
  rfl

theorem Collects.find (id : CacheId) : t.find id = s.find id := by
  rw [h.eq]
  rfl

theorem Collects.diskEvictable {owed : Set CacheId} (hdisk : s.DiskEvictable pf owed) :
    t.DiskEvictable pf owed := by
  refine hdisk.fewer (.collect h) subset_rfl fun id r _ htracked => Or.inl ?_
  rw [h.eq]
  exact htracked

end Collect

/-! ## Access to blocks -/

theorem Static.idOf (h : Static s t) {r : ItemRef} (hr : r < s.itemCount) :
    t.idOf pf r = s.idOf pf r := by
  unfold State.idOf
  rw [(h.item r hr).1]

/-- A block of a living item is still there, with whatever it holds now. -/
theorem Static.hasBlock (h : Static s t) (hs : WF pf s) (ht : WF pf t) {r : ItemRef}
    (hlive : r ∈ s.liveItems) (hlive' : r ∈ t.liveItems) {i : Nat} {b : BlockItem}
    (hb : s.HasBlock r i b) : ∃ b', t.HasBlock r i b' := by
  have hlt : i < (s.items r).blocks.length := (List.getElem?_eq_some_iff.mp hb).1
  have hlen : (t.items r).blocks.length = (s.items r).blocks.length := by
    rw [ht.length r hlive', hs.length r hlive]
    unfold CacheItem.blockCount
    rw [(h.item r (hs.item_lt r hlive)).2]
  exact ⟨_, List.getElem?_eq_getElem (hlen ▸ hlt)⟩

theorem getBlock_spec {T : Prop} {r : ItemRef} {i : Nat} {Q : BlockItem → State → Prop}
    (hT : T → i < (s.items r).blocks.length) (h : ∀ b, s.HasBlock r i b → Q b s) :
    Spec T (getBlock r i) Q s := by
  unfold getBlock
  simp only [spec_bind, spec_read]
  refine spec_deref (fun ht => ?_) fun b hb => h b hb
  simpa using hT ht

/-- Blocks can be counted with 32 bits. -/
theorem Inv.blockCount_lt (hinv : Inv sc ⟨s, g⟩) (hD : sc.D) {r : ItemRef}
    (hr : r ∈ s.liveItems) : (s.items r).blockCount pf.flags < 4294967296 := by
  have hok := hinv.content hD r hr
  unfold CacheItem.blockCount
  rw [hok.size]
  exact hok.le

theorem blockIndexes_spec {T : Prop} {count : Nat} {Q : List Nat → State → Prop}
    (hT : T → count < 4294967296) (h : Q (List.range count) s) :
    Spec T (StarCacheImpl.blockIndexes count) Q s := by
  unfold StarCacheImpl.blockIndexes
  simp only [spec_bind]
  exact spec_require hT fun _ => h

namespace StarCacheImpl

/-! ## Removal -/

/-- `_remove_cache_item`, entered with the released bit of the item set or not. -/
theorem removeCacheItem_spec (hinv : Inv sc ⟨s, g⟩) (hother : P .other) {id : CacheId}
    {r : ItemRef} (hfound : s.find id = some r) (hheld : .item r ∈ s.locals)
    (hchange : P (.change r)) (huntrack : P (.untrack id))
    (hremove : P (.remove id) ∨ (s.items r).blocks.all (·.isEmpty) = true) (released : Bool) :
    Spec sc.T (removeCacheItem pf id r)
      (fun _ t => Ran sc P s g t g ∧ t.find id = none ∧ ¬ t.Indexed r)
      (s.withItem r { s.items r with released }) := by
  unfold removeCacheItem indexRemove
  simp only [spec_bind, spec_modify]
  -- the item leaves the index
  have hunlink : Ran sc P s g { s.withItem r { s.items r with released } with
      accessIndex := s.accessIndex.erase id } g := by
    rcases hremove with hremove | hempty
    · exact (Ran.refl hother).step hremove (.remove id r released hfound) (fun _ h => h) rfl rfl
    · exact (Ran.refl hother).step hother (.expire id r released hfound hempty) (fun _ h => h)
        rfl rfl
  refine (emit_spec hunlink (.indexRemove id r) trivial).mono ?_
  rintro _ _ ⟨hemit, rfl⟩
  refine (collect_ran hemit (hemit.inv hinv)).mono ?_
  rintro _ u ⟨hcollect, heffect, _⟩
  have hgone : u.find id = none ∧ ¬ u.Indexed r := by
    have hfind : ∀ id', u.find id' = if id' = id then none else s.find id' := by
      intro id'
      rw [heffect.eq]
      exact State.find_erase id id'
    refine ⟨by rw [hfind, if_pos rfl], ?_⟩
    rintro ⟨id', hindexed⟩
    rw [hfind] at hindexed
    split at hindexed
    next => cases hindexed
    next hne => exact hne (hinv.wf.find_inj hindexed hfound)
  rw [spec_read]
  refine blockIndexes_spec (fun hT => ?_) ?_
  · exact (hcollect.inv hinv).blockCount_lt (sc.total hT)
      ((hcollect.inv hinv).wf.local_alive (hcollect.locals _ hheld))
  -- the blocks are cleared one by one
  refine (spec_forEach (fun rest v => (∀ i ∈ rest, i < (u.items r).blockCount pf.flags) ∧
    Ran sc P s g v g ∧ v.find id = none ∧ ¬ v.Indexed r) ?_ _ u
    ⟨fun i hi => List.mem_range.mp hi, hcollect, hgone⟩).mono ?_
  · rintro i rest v ⟨hlt, hran, hfind, hindexed⟩
    simp only [spec_bind]
    refine (lock_spec hran true ⟨id, i⟩).mono ?_
    rintro _ w ⟨hlock, hw⟩
    have hinv' := hlock.inv hinv
    refine getBlock_spec (fun hT => ?_) fun b hb => ?_
    · have hlive := hinv'.wf.local_alive (hlock.locals _ hheld)
      rw [hinv'.wf.length r hlive]
      refine Nat.lt_of_lt_of_eq (hlt i List.mem_cons_self) ?_
      have hlt' : r < s.itemCount := hinv.wf.item_lt r (hinv.wf.local_alive hheld)
      unfold CacheItem.blockCount
      rw [(hcollect.static.item r hlt').2, (hlock.static.item r hlt').2]
    have hgone' : w.find id = none ∧ ¬ w.Indexed r := by
      rw [hw]
      exact ⟨hfind, hindexed⟩
    refine (clearBlock_spec hlock hinv' hchange fun h => absurd h hgone'.2).mono ?_
    rintro _ x ⟨hclear, heffect⟩
    have hgone'' : x.find id = none ∧ ¬ x.Indexed r := by
      rw [heffect.eq]
      exact hgone'
    have hfill : Ran sc P s g x g := hclear.fill hinv fun id' h => absurd ⟨id', h⟩ hgone''.2
    refine (memUntrack_spec hfill (hfill.inv hinv) ⟨id, i⟩ huntrack hgone''.1).mono ?_
    rintro _ y ⟨huntracked, hy, _⟩
    refine (unlock_spec huntracked true ⟨id, i⟩).mono ?_
    rintro _ z ⟨hunlock, hz⟩
    refine ⟨fun j hj => hlt j (List.mem_cons_of_mem _ hj), hunlock, ?_⟩
    rw [hz, hy]
    exact hgone''
  · rintro _ v ⟨_, hran, hfind, hindexed⟩
    refine (diskUntrack_spec hran id huntrack hfind).mono ?_
    rintro _ w ⟨huntracked, hw⟩
    refine ⟨huntracked, ?_⟩
    rw [hw]
    exact ⟨hfind, hindexed⟩

/-- `release_if_empty` and the removal that may follow. -/
theorem releaseIfEmpty_spec {g' : Ghost} (hinv : Inv sc ⟨s, g⟩) (hother : P .other) {id : CacheId}
    {r : ItemRef} (hfound : s.find id = some r) (hheld : .item r ∈ s.locals)
    (hchange : P (.change r)) (huntrack : P (.untrack id))
    (hg : g = { g' with hollow := insert r g'.hollow }) :
    Spec sc.T (do if ← releaseIfEmpty r then removeCacheItem pf id r else pure ())
      (fun _ t => Ran sc P s g t g' ∧ (t = s ∨ t.find id = none)) s := by
  unfold releaseIfEmpty updateItem
  simp only [spec_bind, spec_read, spec_modify, spec_pure]
  have hreleased := hinv.wf.active id r hfound
  dsimp only at hreleased
  subst hg
  by_cases hempty : (s.items r).blocks.all (·.isEmpty) = true
  · have hrelease : (s.items r).releaseIfEmpty = (true, { s.items r with released := true }) := by
      unfold CacheItem.releaseIfEmpty
      simp [hreleased, hempty]
    rw [hrelease]
    refine (removeCacheItem_spec hinv hother hfound hheld hchange huntrack (Or.inr hempty)
      true).mono ?_
    rintro _ t ⟨hran, hfind, hindexed⟩
    exact ⟨hran.fill hinv fun id' h => absurd ⟨id', h⟩ hindexed, Or.inr hfind⟩
  · have hrelease : (s.items r).releaseIfEmpty = (false, s.items r) := by
      unfold CacheItem.releaseIfEmpty
      simp [hreleased, hempty]
    have hsame : { s with items := Function.update s.items r (s.items r) } = s := by
      rw [Function.update_eq_self]
    rw [hrelease, hsame]
    have hne : ∃ i b, s.HasBlock r i b ∧ b.isEmpty = false := by
      rw [List.all_eq_true] at hempty
      push Not at hempty
      obtain ⟨b, hmem, hb⟩ := hempty
      obtain ⟨i, hi⟩ := State.mem_blocks_iff.mp hmem
      exact ⟨i, b, hi, by simpa using hb⟩
    exact ⟨(Ran.refl hother).fill hinv fun _ _ => Or.inl hne, Or.inl rfl⟩

/-! ## Disk eviction -/

theorem processEvictedDiskItem_spec (hinv : Inv sc ⟨s, g⟩) (hother : P .other) {id : CacheId}
    {r : ItemRef} (hfound : s.find id = some r) (hitem : P (.change r)) (hid : P (.untrack id))
    (hevicted : ∃ ids, .diskEvict ids ∈ s.trace ∧ id ∈ ids) :
    Spec sc.T (processEvictedDiskItem pf id r) (fun _ t => Ran sc P s g t g ∧
      ∀ r' i b, t.find id = some r' → t.HasBlock r' i b → b.diskBlockItem = none) s := by
  have hstart : Ran sc P s g s g := .refl hother
  unfold processEvictedDiskItem
  refine (scope_spec hstart (fun _ => g) (fun _ u => ∀ r' i b, u.find id = some r' →
    u.HasBlock r' i b → b.diskBlockItem = none) hinv ?_).mono ?_
  · simp only [spec_bind]
    have halive : s.Alive (.item r) := hinv.wf.indexed_live hfound
    refine (hold_spec hstart halive).mono ?_
    rintro _ _ ⟨hhold, rfl⟩
    refine (clearing_spec hhold hfound hevicted).mono ?_
    rintro _ u ⟨hemit, rfl⟩
    refine (clearDisk_spec hemit (hemit.inv hinv) hitem fun _ =>
      ⟨id, List.mem_append_right _ List.mem_cons_self⟩).mono ?_
    rintro _ v ⟨hclear, heffect⟩
    have hfound' : v.find id = some r := by
      rw [heffect.eq]
      exact hfound
    have hheld : .item r ∈ v.locals := by
      rw [heffect.eq]
      exact List.mem_cons_self
    have hblocks : ∀ i b, v.HasBlock r i b → b.diskBlockItem = none := by
      intro i b hb
      rw [heffect.eq] at hb
      have hb' := State.hasBlock_withItem.mp hb
      rw [if_pos rfl] at hb'
      obtain ⟨b₀, _, rfl⟩ := State.clearDiskBlocks_getElem?.mp hb'
      rfl
    refine ((spec_bind _).mp (releaseIfEmpty_spec (hclear.inv hinv) hclear.other hfound' hheld
      hitem hid rfl)).mono fun _ _ h => h.mono ?_
    rintro _ w ⟨hrelease, hw⟩
    refine ⟨hclear.trans hrelease, fun r' i b hfind hb => ?_⟩
    rcases hw with rfl | hnone
    · rw [hfound'] at hfind
      cases hfind
      exact hblocks i b hb
    · rw [hnone] at hfind
      cases hfind
  · rintro _ t ⟨hran, _, _, u, hu, heffect⟩
    refine ⟨hran, ?_⟩
    rw [heffect.eq]
    exact hu

/-- The items to be processed may be changed, as far as they are in the index. -/
theorem processEvictedDiskItems_spec (hother : P .other) (hpublish : ∀ id, ¬ P (.publish id)) :
    ∀ (ids : List CacheId) {s : State},
    Inv sc ⟨s, { g with diskOwed := {id | id ∈ ids} ∪ g.diskOwed }⟩ →
    (∀ id ∈ ids, ∀ r, s.find id = some r → P (.change r) ∧ P (.untrack id)) →
    (∀ id ∈ ids, ∃ ids', .diskEvict ids' ∈ s.trace ∧ id ∈ ids') →
    Spec sc.T (processEvictedDiskItems pf ids) (fun _ t =>
      Ran sc P s { g with diskOwed := {id | id ∈ ids} ∪ g.diskOwed } t g) s
  | [], s, hinv, _, _ =>
      (Ran.refl hother).settle hinv.memEvictable (hinv.diskEvictable.mono (by simp)) hinv.nonEmpty
  | id :: rest, s, hinv, hmeets, hevicted => by
      have hstart : Ran sc P s { g with diskOwed := {id' | id' ∈ id :: rest} ∪ g.diskOwed } s
          { g with diskOwed := {id' | id' ∈ id :: rest} ∪ g.diskOwed } := .refl hother
      unfold processEvictedDiskItems
      simp only [spec_bind, spec_read]
      cases hfind : s.find id with
      | none =>
          refine (emit_spec hstart (.diskMissing id _) trivial).mono ?_
          rintro _ _ ⟨hemit, rfl⟩
          have hinv' := hemit.inv hinv
          refine hemit.settle hinv'.memEvictable (fun id' r i b hfind' hb hdisk hpinned => ?_)
            hinv'.nonEmpty
          rcases hinv'.diskEvictable id' r i b hfind' hb hdisk hpinned with h | (h | h) | h
          · exact Or.inl h
          · -- the ids after the one that is missing are lost
            refine Or.inr (Or.inr ⟨id, _, List.mem_append_right _ List.mem_cons_self, ?_⟩)
            rcases List.mem_cons.mp h with rfl | h
            · have : some r = none := hfind'.symm.trans hfind
              cases this
            · refine List.mem_filter.mpr ⟨h, ?_⟩
              have : s.find id' = some r := hfind'
              rw [this]
              rfl
          · exact Or.inr (Or.inl h)
          · exact Or.inr (Or.inr h)
      | some r =>
          simp only [spec_bind]
          obtain ⟨hitem, hid⟩ := hmeets id List.mem_cons_self r hfind
          refine (processEvictedDiskItem_spec hinv hother hfind hitem hid
            (hevicted id List.mem_cons_self)).mono ?_
          rintro _ t ⟨hran, hblocks⟩
          have hinv' := hran.inv hinv
          have hsettle : Ran sc P s { g with diskOwed := {id' | id' ∈ id :: rest} ∪ g.diskOwed } t
              { g with diskOwed := {id' | id' ∈ rest} ∪ g.diskOwed } := by
            refine hran.settle hinv'.memEvictable ?_ hinv'.nonEmpty
            have hmono : t.DiskEvictable pf (insert id ({id' | id' ∈ rest} ∪ g.diskOwed)) := by
              refine hinv'.diskEvictable.mono fun id' h => ?_
              rcases h with h | h
              · exact (List.mem_cons.mp h).imp_right Or.inl
              · exact Or.inr (Or.inr h)
            exact hmono.drop fun r' i b hfind' hb hdisk _ => absurd (hblocks r' i b hfind' hb) hdisk
          refine (processEvictedDiskItems_spec hother hpublish rest (hsettle.inv hinv)
            (fun id' hid' r' hfind' => ?_) fun id' hid' => ?_).mono fun _ u h => hsettle.trans h
          · exact hmeets id' (List.mem_cons_of_mem _ hid') r'
              (Runs.find hsettle.runs (hpublish id') hfind')
          · obtain ⟨ids', hevent, hin⟩ := hevicted id' (List.mem_cons_of_mem _ hid')
            exact ⟨ids', hran.static.mem_trace hevent, hin⟩

theorem evictForDiskBlock_spec (hinv : Inv sc ⟨s, g⟩) (hevicts : Evicts sc P ⟨s, g⟩) (id : CacheId)
    (size : Nat) : Spec sc.T (evictForDiskBlock pf id size) (fun _ t => Ran sc P s g t g) s := by
  unfold evictForDiskBlock
  simp only [spec_bind]
  have hstart : Ran sc P s g s g := .refl hevicts.other
  refine (diskEvictFor_spec hstart hinv id _).mono ?_
  rintro ids u ⟨hevict, hu, hidle⟩
  refine (processEvictedDiskItems_spec hevicts.other hevicts.publish ids (hevict.inv hinv)
    (fun id' hid' r hfind => ?_) fun id' hid' => ⟨ids, ?_, hid'⟩).mono fun _ t h => hevict.trans h
  · rw [hu] at hfind
    exact hevicts.meets _ .refl id' r (hidle id' hid') hfind
  · rw [hu]
    exact List.mem_append_right _ List.mem_cons_self

/-- The remedy of a failed allocation keeps all obligations closed. -/
theorem allocDiskBlock_spec (hinv : Inv sc ⟨s, g⟩) (hevicts : Evicts sc P ⟨s, g⟩) (key : BlockKey) :
    Spec sc.T (allocDiskBlock pf key) (fun r t => Ran sc P s g t g ∧
      ∀ id, r = some id → id ∈ t.liveBlocks ∧ ∀ r i, t.OwnerAt id r i) s := by
  unfold allocDiskBlock
  refine spec_retry (fun t => Ran sc P s g t g) _ (fun _ t hran => ?_)
    (fun t hran => ?_) (fun t hran => ⟨hran, fun _ => nofun⟩) _ _ s (.refl hevicts.other)
  · refine (newBlockItem_spec hran (hran.inv hinv)).mono ?_
    rintro r u ⟨hu, hnew⟩
    cases r with
    | none => exact hu
    | some id => exact ⟨hu, hnew⟩
  · exact (evictForDiskBlock_spec (hran.inv hinv) (hevicts.runs hran.runs) _ _).mono
      fun _ u h => hran.trans h

end StarCacheImpl

end StarCache
