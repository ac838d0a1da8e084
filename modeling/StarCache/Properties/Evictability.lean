import StarCache.Refinement.Runs

/-!
# Reach of the eviction policies

Whatever an indexed item holds can be evicted, and an indexed item holds something,
as long as no call takes one of three wrong turns: a set that succeeds although it
has evicted its own keys, a pass over evicted ids that ends early, and a failed flush
of the last block of an item.
-/

namespace StarCache

open Prog MachineInt StarCacheImpl

/-! ## Wrong turns -/

namespace Record

variable (rt : Runtime) (t : State) (record : Record)

/-- A set that succeeds has not lost a block key of its object to an eviction. -/
def KeepsMem : Prop :=
  match record.call with
  | .set cacheKey _ _ => record.reply.status.ok = true →
      ∀ key ∈ t.MemLost, key.cacheId ≠ rt.cachekey2id cacheKey
  | _ => True

/-- A set that succeeds has not lost the id of its object to an eviction, and no pass
over evicted ids has left out one that is in the index. -/
def KeepsDisk : Prop :=
  (match record.call with
    | .set cacheKey _ _ => record.reply.status.ok = true → rt.cachekey2id cacheKey ∉ t.DiskLost
    | _ => True) ∧
  ∀ id lost, .diskMissing id lost ∈ t.trace → lost = []

/-- No flush has failed for the last block of an item. -/
def KeepsFilled : Prop :=
  ∀ key r item, .flushFailed key r item ∈ t.trace → ¬ Drained key item

end Record

section Absorbs

variable {rt : Runtime} {t : State} {record : Record}

theorem Record.KeepsMem.absorbs (h : record.KeepsMem rt t) :
    Absorbs ⟨∅, Set.univ, Set.univ⟩
      (record.call.owes rt ⟨∅, Set.univ, Set.univ⟩ record.reply.status t) t where
  mem := by
    obtain ⟨c, reply⟩ := record
    cases c with
    | set cacheKey buf options =>
        unfold Call.owes
        dsimp only
        split
        next hok =>
          rintro key (⟨hid, hlost⟩ | hnone)
          · exact absurd hid (h hok key hlost)
          · exact hnone
        next => exact subset_rfl
    | get | read | remove | pin | unpin => exact subset_rfl
  disk := Set.subset_univ _
  hollow := Set.subset_univ _
  lost _ _ _ _ _ := Set.mem_univ _
  drained _ _ _ _ _ := Set.mem_univ _

theorem Record.KeepsDisk.absorbs (h : record.KeepsDisk rt t) :
    Absorbs ⟨Set.univ, ∅, Set.univ⟩
      (record.call.owes rt ⟨Set.univ, ∅, Set.univ⟩ record.reply.status t) t where
  mem := Set.subset_univ _
  disk := by
    obtain ⟨c, reply⟩ := record
    cases c with
    | set cacheKey buf options =>
        unfold Call.owes
        dsimp only
        split
        next hok =>
          rintro id (⟨hid, hlost⟩ | hnone)
          · exact absurd (hid ▸ hlost) (h.1 hok)
          · exact hnone
        next => exact subset_rfl
    | get | read | remove | pin | unpin => exact subset_rfl
  hollow := Set.subset_univ _
  lost id lost he id' hid := by
    rw [h.2 id lost he] at hid
    cases hid
  drained _ _ _ _ _ := Set.mem_univ _

theorem Record.KeepsFilled.absorbs (h : Record.KeepsFilled t) :
    Absorbs ⟨Set.univ, Set.univ, ∅⟩
      (record.call.owes rt ⟨Set.univ, Set.univ, ∅⟩ record.reply.status t) t where
  mem := Set.subset_univ _
  disk := Set.subset_univ _
  hollow := by
    obtain ⟨c, reply⟩ := record
    cases c with
    | set cacheKey buf options =>
        unfold Call.owes
        dsimp only
        split
        next => exact subset_rfl
        next => exact subset_rfl
    | get | read | remove | pin | unpin => exact subset_rfl
  lost _ _ _ _ _ := Set.mem_univ _
  drained key r item he hdrained := absurd hdrained (h key r item he)

end Absorbs

/-- The events that the wrong turns need. -/
def Event.evicts : Event → Bool
  | .memEvict _ | .diskEvict _ | .diskMissing _ _ | .flushFailed _ _ _ => true
  | _ => false

section Calm

/-! A call that evicts nothing takes no wrong turn. -/

variable {rt : Runtime} {t : State} {record : Record}
  (hcalm : (t.trace.any (·.evicts)) = false)

include hcalm

theorem not_evicts {e : Event} (he : e.evicts = true) : e ∉ t.trace := by
  intro hmem
  rw [List.any_eq_false] at hcalm
  exact hcalm e hmem he

theorem Record.keepsMem_of_calm : record.KeepsMem rt t := by
  unfold KeepsMem
  split
  next =>
    rintro _ key ⟨keys, _, hsub⟩
    exact absurd (hsub.subset (by simp)) (not_evicts (e := .memEvict keys) hcalm rfl)
  next => trivial

theorem Record.keepsDisk_of_calm : record.KeepsDisk rt t := by
  refine ⟨?_, fun id lost he => absurd he (not_evicts hcalm rfl)⟩
  split
  next =>
    rintro _ ⟨ids, before, after, htrace, _⟩
    refine absurd ?_ (not_evicts (e := .diskEvict ids) hcalm rfl)
    rw [htrace]
    exact List.mem_append_right _ List.mem_cons_self
  next => trivial

theorem Record.keepsFilled_of_calm : Record.KeepsFilled t :=
  fun _ _ _ he => absurd he (not_evicts hcalm rfl)

end Calm

section Evictability

variable {rt : Runtime} {options : CacheOptions} {history : List Record} {s : State}

/-- Every memory block of an indexed item is tracked, except those of pinned items of a cache
without disks. -/
theorem mem_evictable (hrun : RunOf rt options (fun _ record t => record.KeepsMem rt t) history s)
    (id : CacheId) (r : ItemRef) (i : Nat) (b : BlockItem) (hfind : s.find id = some r)
    (hb : s.HasBlock r i b) (hmem : b.memBlockItem ≠ none)
    (hfree : ¬ ((s.items r).pinned = true ∧ s.hasDiskLayer = false)) :
    s.MemTracked rt.toPlatform ⟨id, i⟩ := by
  obtain ⟨val, hsound⟩ := hrun.sound_bare fun _ _ _ h => h.absorbs
  exact (hsound.inv.memEvictable id r i b hfind hb hmem hfree).resolve_right fun h => h

/-- A whole block and a short one. -/
theorem mem_evictable_small : ∃ history s,
    RunOf (.simple .small .reliable) (.oneDir 100 16)
        (fun _ record t => record.KeepsMem (.simple .small .reliable) t) history s ∧
      s.find 1 = some 0 ∧ ∀ i < 2,
        (∃ b, s.HasBlock 0 i b ∧ b.memBlockItem ≠ none) ∧
          s.MemTracked (.simple .small .reliable) ⟨1, i⟩ := by
  have hcall : ((Call.set [1] [1, 2, 3, 4, 5] none).run (.simple .small .reliable)
      (StarCacheImpl.init (.simple .small .reliable) (.oneDir 100 16))).any (fun x =>
        !x.2.trace.any (·.evicts) && decide (x.2.find 1 = some 0 ∧
          (x.2.items 0).pinned = false ∧ ∀ i < 2,
          ((x.2.items 0).blocks[i]?.bind BlockItem.memBlockItem).isSome = true)) = true := by
    decide +kernel
  obtain ⟨x, hx, hp⟩ := (Option.any_eq_true _ _).mp hcall
  simp only [Bool.and_eq_true, Bool.not_eq_true', decide_eq_true_eq] at hp
  obtain ⟨hcalm, hfind, hpinned, hblocks⟩ := hp
  have hrun := RunOf.call (C := fun _ record t => record.KeepsMem (.simple .small .reliable) t)
    _ x.1 .init hx (Record.keepsMem_of_calm hcalm)
  refine ⟨_, x.2, hrun, hfind, fun i hi => ?_⟩
  obtain ⟨block, hblock⟩ := Option.isSome_iff_exists.mp (hblocks i hi)
  obtain ⟨b, hb, hmem⟩ := Option.bind_eq_some_iff.mp hblock
  have hheld : b.memBlockItem ≠ none := by
    rw [hmem]
    exact Option.some_ne_none _
  refine ⟨⟨b, hb, hheld⟩, mem_evictable hrun 1 0 i b hfind hb hheld ?_⟩
  rintro ⟨h, _⟩
  rw [hpinned] at h
  cases h

/-- The second block of an object takes back what the first one has been tracked under. -/
theorem mem_not_evictable : ∃ history s,
    Run (.simple { Flags.small with memEvictTimes := 2 } .reliable) (.oneDir 11 16) history s ∧
      s.find 2 = some 1 ∧ (s.items 1).pinned = false ∧
      (∃ b, s.HasBlock 1 0 b ∧ b.memBlockItem ≠ none) ∧
      ¬ s.MemTracked (.simple { Flags.small with memEvictTimes := 2 } .reliable) ⟨2, 0⟩ := by
  obtain ⟨history, s, hrun, hp⟩ := Run.of_calls
    (.simple { Flags.small with memEvictTimes := 2 } .reliable) (.oneDir 11 16)
    [.set [1] [1, 2, 3, 4] none, .set [2] [5, 6, 7, 8, 9, 10, 11, 12] none]
    (fun _ s => decide (s.find 2 = some 1 ∧ (s.items 1).pinned = false ∧
      ((s.items 1).blocks[0]?.bind BlockItem.memBlockItem).isSome = true ∧
      ¬ s.MemTracked (.simple .small .reliable) ⟨2, 0⟩)) (by decide +kernel)
  obtain ⟨hfind, hpinned, hblock, hlost⟩ := of_decide_eq_true hp
  obtain ⟨block, hblock⟩ := Option.isSome_iff_exists.mp hblock
  obtain ⟨b, hb, hmem⟩ := Option.bind_eq_some_iff.mp hblock
  exact ⟨history, s, hrun, hfind, hpinned, ⟨b, hb, by rw [hmem]; exact Option.some_ne_none _⟩, hlost⟩

/-- Every unpinned item of the index that has a disk block is tracked. -/
theorem disk_evictable (hrun : RunOf rt options (fun _ record t => record.KeepsDisk rt t) history s)
    (id : CacheId) (r : ItemRef) (i : Nat) (b : BlockItem) (hfind : s.find id = some r)
    (hb : s.HasBlock r i b) (hdisk : b.diskBlockItem ≠ none)
    (hfree : (s.items r).pinned = false) : s.DiskTracked rt.toPlatform id := by
  obtain ⟨val, hsound⟩ := hrun.sound_bare fun _ _ _ h => h.absorbs
  rcases hsound.inv.diskEvictable id r i b hfind hb hdisk hfree with h | h | ⟨_, _, h, _⟩
  · exact h
  · cases h
  · cases h

/-- An object of two blocks that goes to disk at once. -/
theorem disk_evictable_small : ∃ history s,
    RunOf (.simple .small .reliable) (.oneDir 100 16)
        (fun _ record t => record.KeepsDisk (.simple .small .reliable) t) history s ∧
      s.DiskTracked (.simple .small .reliable) 1 := by
  have hcall : ((Call.set [1] [1, 2, 3, 4, 5] (some { mode := .writeThrough })).run
      (.simple .small .reliable)
      (StarCacheImpl.init (.simple .small .reliable) (.oneDir 100 16))).any (fun x =>
        !x.2.trace.any (·.evicts) && decide (x.2.find 1 = some 0 ∧
          (x.2.items 0).pinned = false) &&
          ((x.2.items 0).blocks[1]?.bind BlockItem.diskBlockItem).isSome) = true := by
    decide +kernel
  obtain ⟨x, hx, hp⟩ := (Option.any_eq_true _ _).mp hcall
  simp only [Bool.and_eq_true, Bool.not_eq_true', decide_eq_true_eq] at hp
  obtain ⟨⟨hcalm, hfind, hpinned⟩, hblock⟩ := hp
  obtain ⟨block, hblock⟩ := Option.isSome_iff_exists.mp hblock
  obtain ⟨b, hb, hdisk⟩ := Option.bind_eq_some_iff.mp hblock
  have hrun := RunOf.call (C := fun _ record t => record.KeepsDisk (.simple .small .reliable) t)
    _ x.1 .init hx (Record.keepsDisk_of_calm hcalm)
  refine ⟨_, x.2, hrun, disk_evictable hrun 1 0 1 b hfind hb ?_ hpinned⟩
  rw [hdisk]
  exact Option.some_ne_none _

/-- The id of a set that has failed is still tracked; the pass that meets it ends there, and
the next id is lost. -/
theorem disk_not_evictable : ∃ history s,
    Run (.simple { Flags.small with diskEvictTimes := 3 } (.failingWrite 8)) (.oneDir 100 8)
        history s ∧
      s.find 1 = some 1 ∧ (s.items 1).pinned = false ∧
      (∃ b, s.HasBlock 1 0 b ∧ b.diskBlockItem ≠ none) ∧
      ¬ s.DiskTracked (.simple { Flags.small with diskEvictTimes := 3 } (.failingWrite 8)) 1 := by
  obtain ⟨history, s, hrun, hp⟩ := Run.of_calls
    (.simple { Flags.small with diskEvictTimes := 3 } (.failingWrite 8))
    (.oneDir 100 8)
    [.set [2] [1, 2, 3, 4, 5, 6, 7, 8] (some { mode := .writeThrough }),
      .set [1] [1, 2, 3, 4, 5, 6, 7, 8] (some { mode := .writeThrough }),
      .set [3] [1, 2, 3, 4] (some { mode := .writeThrough })]
    (fun _ s => decide (s.find 1 = some 1 ∧ (s.items 1).pinned = false ∧
      ((s.items 1).blocks[0]?.bind BlockItem.diskBlockItem).isSome = true ∧
      ¬ s.DiskTracked (.simple .small .reliable) 1)) (by decide +kernel)
  obtain ⟨hfind, hpinned, hblock, hlost⟩ := of_decide_eq_true hp
  obtain ⟨block, hblock⟩ := Option.isSome_iff_exists.mp hblock
  obtain ⟨b, hb, hdisk⟩ := Option.bind_eq_some_iff.mp hblock
  exact ⟨history, s, hrun, hfind, hpinned, ⟨b, hb, by rw [hdisk]; exact Option.some_ne_none _⟩,
    hlost⟩

/-- Every item of the index holds something. So a set that is refused has found an object with
data, and says so; any other has the status of its writing. -/
theorem index_filled (hrun : RunOf rt options (fun _ _ t => Record.KeepsFilled t) history s) :
    (∀ id r, s.find id = some r → s.Filled r) ∧
      ∀ cacheKey buf writeOptions, buf ≠ [] → s.concurrentWrites < rt.flags.maxConcurrentWrites →
        (Refuses rt (rt.cachekey2id cacheKey) buf writeOptions s →
          ∃ r, s.find (rt.cachekey2id cacheKey) = some r ∧ s.Filled r) ∧
        ∀ st t, StarCacheImpl.set rt cacheKey buf writeOptions s = some (st, t) →
          (st.errorCode = EEXIST ∧
            ∃ r, s.find (rt.cachekey2id cacheKey) = some r ∧ s.Filled r) ∨
          ∃ u v, Unlinked rt.toPlatform (rt.cachekey2id cacheKey) s u ∧
            writeCacheItem rt (rt.cachekey2id cacheKey) cacheKey buf writeOptions u =
              some (st, v) := by
  have hfilled : ∀ id r, s.find id = some r → s.Filled r := by
    intro id r hfind
    obtain ⟨val, hsound⟩ := hrun.sound_bare fun _ _ _ h => h.absorbs
    rcases hsound.inv.nonEmpty id r hfind with h | h | ⟨_, _, h, _⟩
    · exact h
    · cases h
    · cases h
  refine ⟨hfilled, fun cacheKey buf writeOptions hbuf hbusy => ?_⟩
  have hexists : Refuses rt (rt.cachekey2id cacheKey) buf writeOptions s →
      ∃ r, s.find (rt.cachekey2id cacheKey) = some r ∧ s.Filled r := by
    rintro (hempty | hmany | ⟨r, hfind, _⟩)
    · exact absurd hempty hbuf
    · omega
    · exact ⟨r, hfind, hfilled _ r hfind⟩
  refine ⟨hexists, fun st t hset => ?_⟩
  rcases set_cases hset with ⟨hrefuses, _, hcode⟩ | ⟨u, v, _, hunlinked, hwrite, _⟩
  · exact Or.inl ⟨hcode hbuf hbusy, hexists hrefuses⟩
  · exact Or.inr ⟨u, v, hunlinked, hwrite⟩

/-- An object in memory. -/
theorem index_filled_small : ∃ history s,
    RunOf (.simple .small .reliable) (.oneDir 100 16) (fun _ _ t => Record.KeepsFilled t)
      history s ∧ s.Filled 0 := by
  have hcall : ((Call.set [1] [1, 2, 3, 4, 5] none).run (.simple .small .reliable)
      (StarCacheImpl.init (.simple .small .reliable) (.oneDir 100 16))).any (fun x =>
        !x.2.trace.any (·.evicts) && decide (x.2.find 1 = some 0)) = true := by
    decide +kernel
  obtain ⟨x, hx, hp⟩ := (Option.any_eq_true _ _).mp hcall
  simp only [Bool.and_eq_true, Bool.not_eq_true', decide_eq_true_eq] at hp
  obtain ⟨hcalm, hfind⟩ := hp
  have hrun := RunOf.call (C := fun _ _ t => Record.KeepsFilled t)
    _ x.1 .init hx (Record.keepsFilled_of_calm hcalm)
  exact ⟨_, x.2, hrun, (index_filled hrun).1 1 0 hfind⟩

/-- A directory without a block: the flush of the only block of an object fails, and the empty
object stays; a set that may not overwrite it is refused. -/
theorem index_not_filled : ∃ history s,
    Run (.simple .small .reliable) (.oneDir 9 0) history s ∧ s.find 1 = some 0 ∧ ¬ s.Filled 0 ∧
      history.head?.map (·.reply.status.errorCode) = some EEXIST := by
  obtain ⟨history, s, hrun, hp⟩ := Run.of_calls (.simple .small .reliable)
    (.oneDir 9 0) [.set [1] [1, 2, 3, 4] none, .set [2] [5, 6, 7, 8] none,
      .set [1] [1] (some { overwrite := false })]
    (fun history s => decide (s.find 1 = some 0 ∧
      (s.items 0).blocks.all (·.isEmpty) = true ∧
      history.head?.map (·.reply.status.errorCode) = some EEXIST)) (by decide +kernel)
  obtain ⟨hfind, hempty, hexists⟩ := of_decide_eq_true hp
  refine ⟨history, s, hrun, hfind, ?_, hexists⟩
  rintro ⟨i, b, hb, hfilled⟩
  have := List.all_eq_true.mp hempty b (List.mem_of_getElem? hb)
  rw [hfilled] at this
  cases this

end Evictability

end StarCache
