import StarCache.Properties.Reading

/-!
# Pinned objects

In a cache without disks nothing can be done with the blocks of a pinned object. In a
cache with disks its memory blocks may go to disk, and it keeps its data as long as no
flush of one of its blocks fails and no eviction from disk can reach it.
-/

namespace StarCache

open Prog MachineInt StarCacheImpl

/-- The states that calls which meet a condition lead to. -/
inductive AfterCalls (rt : Runtime) (C : State → Record → State → Prop) (s : State) : State → Prop
  | refl : AfterCalls rt C s s
  | call {t u : State} (c : Call) (reply : Reply) : AfterCalls rt C s t →
      c.run rt t = some (reply, u) → C t ⟨c, reply⟩ u → AfterCalls rt C s u

/-- A call that may end the protection of the object of this id. -/
def Call.Ends (rt : Runtime) (id : CacheId) : Call → Prop
  | .set cacheKey _ _ | .remove cacheKey | .unpin cacheKey => rt.cachekey2id cacheKey = id
  | _ => False

instance (rt : Runtime) (id : CacheId) : ∀ c : Call, Decidable (c.Ends rt id)
  | .set cacheKey _ _ | .remove cacheKey | .unpin cacheKey =>
      inferInstanceAs (Decidable (rt.cachekey2id cacheKey = id))
  | .get _ _ | .read _ _ _ _ | .pin _ => inferInstanceAs (Decidable False)

section Pinning

variable {rt : Runtime} {options : CacheOptions} {history : List Record} {s t u : State}
  {C : State → Record → State → Prop} {c : Call} {reply : Reply} {id : CacheId} {r : ItemRef}

theorem AfterCalls.run (h : AfterCalls rt C s t) (hrun : Run rt options history s) :
    ∃ history', Run rt options history' t := by
  induction h with
  | refl => exact ⟨history, hrun⟩
  | call c reply _ hcall _ ih =>
      obtain ⟨history', hrun'⟩ := ih
      exact ⟨_, hrun'.call c reply hcall⟩

/-- The other calls leave the place in the index and the pinned bit alone. -/
theorem Call.keeps (hwf : WF rt.toPlatform s) (hfind : s.find id = some r)
    (hpinned : (s.items r).pinned = true) (hc : ¬ c.Ends rt id) :
    ¬ c.Does rt s (.publish id) ∧ ¬ c.Does rt s (.remove id) ∧ ¬ c.Does rt s (.pin r) := by
  cases c with
  | set cacheKey buf options =>
      refine ⟨fun h => hc h.symm, fun h => hc h.symm, fun h => ?_⟩
      exact absurd (hwf.indexed_lt hfind) (Nat.not_lt.mpr h)
  | get | read => exact ⟨fun h => h, fun h => h, fun h => h⟩
  | remove cacheKey => exact ⟨fun h => h, fun h => hc h.symm, fun h => h⟩
  | pin cacheKey =>
      refine ⟨fun h => h, fun h => h, fun h => ?_⟩
      exact absurd (hpinned.symm.trans h.2) (by decide)
  | unpin cacheKey =>
      refine ⟨fun h => h, fun h => h, fun hlookup => hc ?_⟩
      exact hwf.find_inj (lookupItem_iff.mp hlookup).1 hfind

/-! ## Without disks -/

/-- The item has this memory block. -/
def State.HasMem (s : State) (r : ItemRef) (i : Nat) (block : MemBlockItem) : Prop :=
  ∃ b, s.HasBlock r i b ∧ b.memBlockItem = some block

/-- A block of a pinned object of a cache without disks, and the bytes it refers to. -/
structure KeptInMem (id : CacheId) (r : ItemRef) (i : Nat) (block : MemBlockItem) (s t : State) :
    Prop where
  find : t.find id = some r
  locked : t.Locked r
  held : t.HasMem r i block
  segment : ∀ g, some g ∈ block.slices → t.segments g = s.segments g

theorem KeptInMem.call {i : Nat} {block : MemBlockItem} (h : KeptInMem id r i block s t)
    (hrun : Run rt options history t) (hcall : c.run rt t = some (reply, u))
    (hc : ¬ c.Ends rt id) : KeptInMem id r i block s u := by
  obtain ⟨sc, g, hinv, hran⟩ := hrun.ran hcall
  obtain ⟨hpublish, hremove, hpin⟩ := Call.keeps hinv.wf h.find h.locked.1 hc
  obtain ⟨hfind, hlocked, hblock⟩ :=
    Runs.locked hran.runs hinv hpublish hremove hpin h.find h.locked h.held
  refine ⟨hfind, hlocked, hblock, fun g hg => ?_⟩
  obtain ⟨b, hb, hmem⟩ := h.held
  have hlt : g < t.segmentCount :=
    hinv.wf.segment_lt g (hinv.wf.mem_alive (hinv.wf.indexed_live h.find) hb hmem g hg)
  exact (hran.static.segment g hlt).trans (h.segment g hg)

/-- Nothing of the object is owed to the eviction policy while nothing can be evicted. -/
theorem Inv.locked {sc : Scenario rt.toPlatform} (hinv : Inv sc ⟨s, .all⟩)
    (hfind : s.find id = some r) (hlocked : s.Locked r) :
    Inv sc ⟨s, { Ghost.all with memOwed := {key | key.cacheId ≠ id} }⟩ where
  wf := hinv.wf
  content := hinv.content
  memEvictable := by
    intro id' r' i b hf hb hmem hfree
    by_cases hid : id' = id
    · subst hid
      obtain rfl : r' = r := Option.some.inj (hf.symm.trans hfind)
      exact absurd hlocked hfree
    · exact Or.inr hid
  diskEvictable := hinv.diskEvictable
  nonEmpty := hinv.nonEmpty
  covered := hinv.covered
  clock := hinv.clock

/-- Unpinning makes the blocks of the object evictable again. -/
theorem KeptInMem.unpin {i : Nat} {block : MemBlockItem} (h : KeptInMem id r i block s t)
    (hrun : Run rt options history t) {cacheKey : CacheKey} (hid : rt.cachekey2id cacheKey = id)
    (hcall : (Call.unpin cacheKey).run rt t = some (reply, u)) (hok : reply.status.ok = true) :
    u.HasMem r i block ∧ u.MemTracked rt.toPlatform ⟨id, i⟩ := by
  obtain ⟨val, hsound⟩ := hrun.sound
  have hinv := hsound.inv.locked h.find h.locked
  have hspec : Spec False ((Call.unpin cacheKey).run rt) (fun reply u =>
      reply.status.ok = true → u.HasMem r i block ∧ u.MemTracked rt.toPlatform ⟨id, i⟩) t := by
    unfold Call.run Call.body
    simp only [spec_bind, spec_modify]
    have hunpin := @unpin_spec _ _ _ _ cacheKey hinv hsound.quiet.reset
    refine (hunpin.weaken False.elim).mono ?_
    rintro st v ⟨hran, _, hdone⟩ hok
    obtain ⟨r', hlookup, heq⟩ := hdone hok
    obtain ⟨hfind, _, _⟩ := lookupItem_iff.mp hlookup
    obtain rfl : r' = r := by
      rw [hid] at hfind
      exact Option.some.inj (hfind.symm.trans h.find)
    obtain ⟨b, hb, hmem⟩ := h.held
    have hitem : v.items r' = { t.items r' with pinned := false } := by
      rw [heq]
      exact Function.update_self ..
    have hb' : v.HasBlock r' i b := by
      unfold State.HasBlock
      rw [hitem]
      exact hb
    have hfind' : v.find id = some r' := by
      rw [heq]
      exact h.find
    refine ⟨⟨b, hb', hmem⟩, ?_⟩
    refine ((hran.inv hinv).memEvictable id r' i b hfind' hb' ?_ ?_).resolve_right ?_
    · rw [hmem]
      exact Option.some_ne_none _
    · intro hlocked
      have hpinned := hlocked.1
      rw [hitem] at hpinned
      cases hpinned
    · exact fun hne => hne rfl
  exact hspec.outcome hcall hok

/-- In a cache without disks a pinned object keeps its memory blocks and their bytes, whatever
calls follow that do not end its protection; and an unpin after them tracks the blocks again. -/
theorem pinned_blocks_kept (hrun : Run rt options history s) (hdirs : options.diskDirSpaces = [])
    (hfind : s.find id = some r) (hpinned : (s.items r).pinned = true) {i : Nat}
    {block : MemBlockItem} (hblock : s.HasMem r i block)
    (hcalls : AfterCalls rt (fun _ record _ => ¬ record.call.Ends rt id) s t) :
    (t.find id = some r ∧ t.HasMem r i block ∧
      ∀ g, some g ∈ block.slices → t.segments g = s.segments g) ∧
    ∀ cacheKey reply u, rt.cachekey2id cacheKey = id →
      (Call.unpin cacheKey).run rt t = some (reply, u) → reply.status.ok = true →
        u.HasMem r i block ∧ u.MemTracked rt.toPlatform ⟨id, i⟩ := by
  have hkept : KeptInMem id r i block s t := by
    induction hcalls with
    | refl =>
        refine ⟨hfind, ⟨hpinned, ?_⟩, hblock, fun _ _ => rfl⟩
        unfold State.hasDiskLayer
        rw [hrun.options_eq, hdirs]
        rfl
    | call c reply hafter hcall hc ih =>
        obtain ⟨history', hrun'⟩ := hafter.run hrun
        exact ih.call hrun' hcall hc
  obtain ⟨history', hrun'⟩ := hcalls.run hrun
  exact ⟨⟨hkept.find, hkept.held, hkept.segment⟩, fun cacheKey reply u hid hcall hok =>
    hkept.unpin hrun' hid hcall hok⟩

/-- A second object takes the memory; the first one has been pinned by its set. -/
theorem pinned_blocks_kept_small : ∃ history s t u block,
    Run (.simple .small .reliable) ⟨12, [], by decide⟩ history s ∧
      AfterCalls (.simple .small .reliable) (fun _ record _ =>
        ¬ record.call.Ends (.simple .small .reliable) 1) s t ∧
      (∃ reply, (Call.unpin [1]).run (.simple .small .reliable) t = some (reply, u)) ∧
      u.HasMem 1 0 block ∧ u.MemTracked (.simple .small .reliable) ⟨1, 0⟩ := by
  obtain ⟨history, s, hrun, hp⟩ := Run.of_calls (.simple .small .reliable) ⟨12, [], by decide⟩
    [.set [2] [5, 6, 7, 8] none, .set [1] [1, 2, 3, 4] (some { pinned := true })]
    (fun _ s => decide (s.find 1 = some 1 ∧ (s.items 1).pinned = true) &&
      ((s.items 1).blocks[0]?.bind BlockItem.memBlockItem).isSome &&
      ((Call.set [3] [5, 6, 7, 8] none).run (.simple .small .reliable) s).any
        fun (x : Reply × State) => ((Call.unpin [1]).run (.simple .small .reliable) x.2).any
          fun (y : Reply × State) => y.1.status.ok) (by decide +kernel)
  simp only [Bool.and_eq_true, decide_eq_true_eq, Option.any_eq_true] at hp
  obtain ⟨⟨⟨hfind, hpinned⟩, hblock⟩, x, hset, y, hunpin, hok⟩ := hp
  obtain ⟨block, hblock⟩ := Option.isSome_iff_exists.mp hblock
  obtain ⟨b, hb, hmem⟩ := Option.bind_eq_some_iff.mp hblock
  have hends : ¬ (Call.set [3] [5, 6, 7, 8] none).Ends (.simple .small .reliable) 1 := by
    decide +kernel
  have hafter := AfterCalls.call (C := fun _ record _ =>
    ¬ record.call.Ends (.simple .small .reliable) 1) _ x.1 .refl hset hends
  obtain ⟨_, hkept⟩ := pinned_blocks_kept hrun rfl hfind hpinned ⟨b, hb, hmem⟩ hafter
  obtain ⟨hheld, htracked⟩ := hkept [1] y.1 y.2 rfl hunpin hok
  exact ⟨history, s, x.2, y.2, block, hrun, hafter, ⟨y.1, hunpin⟩, hheld, htracked⟩

/-! ## With disks -/

theorem Guarded.reset (h : Guarded rt.toPlatform id r s) : Guarded rt.toPlatform id r s.reset where
  pinned := h.pinned
  untracked := h.untracked
  notEvicted _ h := absurd h List.not_mem_nil
  notCleared _ := List.not_mem_nil
  notDeleted _ := List.not_mem_nil
  whole := h.whole

/-- A slice of a pinned object that no eviction from disk can reach. -/
structure KeptSlice (rt : Runtime) (options : CacheOptions) (cacheKey : CacheKey)
    (value : Option IOBuf) (r : ItemRef) (i k : Nat) (t : State) : Prop where
  run : ∃ history, RunOf rt options (fun _ record _ => record.call.Fits rt.flags) history t ∧
    latestValue cacheKey history = value
  lookup : lookupItem rt t cacheKey = some r
  guarded : Guarded rt.toPlatform (rt.cachekey2id cacheKey) r t.reset
  held : ∃ b, t.HasBlock r i b ∧ b.Holds k

section KeptSlice

variable {cacheKey : CacheKey} {value : Option IOBuf} {buf : IOBuf} {i k : Nat} (hdata : DataHyp rt.toPlatform)
  (hcovered : Covered rt.flags (StarCacheImpl.init rt.toPlatform options).diskSpace)

include hdata hcovered

theorem KeptSlice.sound (h : KeptSlice rt options cacheKey value r i k t) :
    ∃ val history, Sound { (Scenario.served hdata 0).unbroken with val } .all history t ∧
      latestValue cacheKey history = value := by
  obtain ⟨history, hrun, hvalue⟩ := h.run
  obtain ⟨val, hsound⟩ := hrun.sound_unbroken hdata hcovered
  exact ⟨val, history, hsound, hvalue⟩

theorem KeptSlice.call (h : KeptSlice rt options cacheKey value r i k t)
    (hcall : c.run rt t = some (reply, u)) (hfits : c.Fits rt.flags)
    (hc : ¬ c.Ends rt (rt.cachekey2id cacheKey)) (hflush : ¬ u.FlushFailed r) :
    KeptSlice rt options cacheKey value r i k u := by
  obtain ⟨history, hrun, hvalue⟩ := h.run
  obtain ⟨val, hsound⟩ := hrun.sound_unbroken hdata hcovered
  obtain ⟨hran, _⟩ := hsound.ran (fun _ => hfits.stored) (fun _ => Or.inl hfits.inRange) hcall
  have hinv := hsound.given c
  obtain ⟨hfind, hkey, _⟩ := lookupItem_iff.mp h.lookup
  obtain ⟨hpublish, hremove, hpin⟩ := Call.keeps hinv.wf hfind h.guarded.pinned hc
  rcases Runs.guarded (durable_holds trivial k) hran.runs hinv hpublish hremove hpin hfind
      h.guarded h.held with hfailed | ⟨hguarded, hfind', hheld⟩
  · exact absurd hfailed hflush
  have hkey' : (u.items r).cacheKey = cacheKey :=
    (hran.static.item r (hinv.wf.indexed_lt hfind)).1.trans hkey
  refine ⟨⟨_, hrun.call c reply hcall hfits, ?_⟩, lookupItem_iff.mpr ⟨hfind', hkey', ?_⟩,
    hguarded.reset, hheld⟩
  · rw [← hvalue]
    apply latestValue_cons
    · rintro buf options rfl
      exact absurd rfl hc
    · rintro rfl
      exact absurd rfl hc
  · exact (hran.inv hinv).wf.active _ r hfind'

theorem KeptSlice.afterCalls (hcalls : AfterCalls rt (fun _ record u => record.call.Fits rt.flags ∧
      ¬ record.call.Ends rt (rt.cachekey2id cacheKey) ∧ ¬ u.FlushFailed r) s t)
    (h : KeptSlice rt options cacheKey value r i k s) :
    KeptSlice rt options cacheKey value r i k t := by
  induction hcalls with
  | refl => exact h
  | call c reply _ hcall hc ih => exact ih.call hdata hcovered hcall hc.1 hc.2.1 hc.2.2

/-- A read of such an object. -/
theorem KeptSlice.read (h : KeptSlice rt options cacheKey (some buf) r i k t)
    (hread : ReadHyp rt.toPlatform 0) {off size : Nat} (hlt : off + size < 18446744073709551616)
    (hres : Readable rt.flags BlockItem.Holds t r off (off + min size (buf.length - off)))
    (readOptions : Option ReadOptions) :
    ∃ reply u, (Call.read cacheKey off size readOptions).run rt t = some (reply, u) ∧
      (¬ u.FlushFailed r → reply.status.ok = true ∧ reply.buf = (buf.drop off).take size) := by
  obtain ⟨val, history, hsound, hvalue⟩ := h.sound hdata hcovered
  obtain ⟨hfind, hkey, _⟩ := lookupItem_iff.mp h.lookup
  obtain rfl : val r = buf := by
    have hlatest := hsound.latest _ r hfind
    rw [hkey, hvalue] at hlatest
    exact (Option.some.inj hlatest).symm
  obtain ⟨reply, u, hcall, hran, hbytes, hok, _⟩ := (read_spec (T := True) (H := True) hsound.inv
    h.lookup readOptions (fun _ => hlt) (fun _ => hsound.addressable trivial r) (fun _ => trivial) id
    (fun _ _ _ _ => trivial) (fun _ => Or.inl trivial) fun _ => Or.inl ⟨⟨trivial, hread⟩, hres⟩).defined trivial
  refine ⟨reply, u, hcall, fun hflush => ?_⟩
  rcases Runs.guarded (durable_holds trivial k) hran.runs hsound.inv (fun h => h) (fun h => h)
      (fun h => h) hfind h.guarded h.held with hfailed | ⟨hguarded, _⟩
  · exact absurd hfailed hflush
  have hok := (hok trivial).resolve_right fun h => hflush (hguarded.harmed h.2)
  exact ⟨hok, hbytes trivial hok⟩

/-- A pinned object that no eviction from disk can reach and that has no partial block stays
readable, whatever calls follow, as long as no flush of one of its blocks fails. -/
theorem pinned_readable (hread : ReadHyp rt.toPlatform 0) (hrun : Run rt options history s)
    (hfits : ∀ record ∈ history, record.call.Fits rt.flags)
    (hlookup : lookupItem rt s cacheKey = some r) (hpinned : (s.items r).pinned = true)
    (huntracked : ¬ s.DiskTracked rt.toPlatform (rt.cachekey2id cacheKey))
    (hwhole : ∀ i, ¬ s.Partial rt.toPlatform r i)
    (hcalls : AfterCalls rt (fun _ record u => record.call.Fits rt.flags ∧
      ¬ record.call.Ends rt (rt.cachekey2id cacheKey) ∧ ¬ u.FlushFailed r) s t) :
    ∃ buf, latestValue cacheKey history = some buf ∧
      ∀ off size : Nat, off + size < 18446744073709551616 → off < buf.length → 0 < size →
        Readable rt.flags BlockItem.Holds s r off (off + min size (buf.length - off)) →
          Readable rt.flags BlockItem.Holds t r off (off + min size (buf.length - off)) ∧
          ∀ readOptions, ∃ reply u,
            (Call.read cacheKey off size readOptions).run rt t = some (reply, u) ∧
              (¬ u.FlushFailed r →
                reply.status.ok = true ∧ reply.buf = (buf.drop off).take size) := by
  obtain ⟨val, hsound⟩ := (hrun.runOf _ hfits).sound_unbroken hdata hcovered
  obtain ⟨hfind, hkey, _⟩ := lookupItem_iff.mp hlookup
  have hvalue : latestValue cacheKey history = some (val r) := hkey ▸ hsound.latest _ r hfind
  have hguarded : Guarded rt.toPlatform (rt.cachekey2id cacheKey) r s.reset :=
    ⟨hpinned, huntracked, fun _ h => absurd h List.not_mem_nil, fun _ => List.not_mem_nil,
      fun _ => List.not_mem_nil, hwhole⟩
  have hkept : ∀ {i k}, (∃ b, s.HasBlock r i b ∧ b.Holds k) →
      KeptSlice rt options cacheKey (some (val r)) r i k t := fun hheld =>
    .afterCalls hdata hcovered hcalls ⟨⟨history, hrun.runOf _ hfits, hvalue⟩, hlookup, hguarded, hheld⟩
  refine ⟨val r, hvalue, fun off size hlt hoff hsize hres => ?_⟩
  have hres' : Readable rt.flags BlockItem.Holds t r off (off + min size ((val r).length - off)) :=
    fun p hlow hhigh => (hkept (hres p hlow hhigh)).held
  refine ⟨hres', fun readOptions => ?_⟩
  exact (hkept (hres off (Nat.le_refl _) (by omega))).read hdata hcovered hread hlt hres' readOptions

end KeptSlice

theorem State.FlushFailed.harmed (h : s.FlushFailed r) : s.Harmed r := by
  obtain ⟨key, item, he⟩ := h
  exact ⟨_, he, rfl⟩

/-- A pinned object on disk, and a second one that fills the memory. -/
theorem pinned_readable_small : ∃ history s t reply u,
    Run (.simple .small .reliable) (.oneDir 10 8) history s ∧
      AfterCalls (.simple .small .reliable) (fun _ record u => record.call.Fits .small ∧
        ¬ record.call.Ends (.simple .small .reliable) 1 ∧ ¬ u.FlushFailed 0) s t ∧
      (Call.read [1] 1 2 none).run (.simple .small .reliable) t = some (reply, u) ∧
      reply.buf = [2, 3] := by
  obtain ⟨history, s, hrun, hp⟩ := Run.of_calls (.simple .small .reliable) (.oneDir 10 8)
    [.set [1] [1, 2, 3, 4] (some { mode := .writeThrough, pinned := true })]
    (fun history s => decide (lookupItem (.simple .small .reliable) s [1] = some 0 ∧
      latestValue [1] history = some [1, 2, 3, 4] ∧ (s.items 0).pinned = true ∧
      (∀ record ∈ history, record.call.Bounded 2147483648) ∧
      (∀ record ∈ history, record.call.InRange) ∧
      ¬ s.DiskTracked (.simple .small .reliable) 1 ∧
      (∀ b ∈ (s.items 0).blocks, b.diskBlockItem ≠ none) ∧ (s.items 0).blocks.length = 1 ∧
      ((Call.set [2] [5, 6, 7, 8] none).run (.simple .small .reliable) s).any
        (fun (x : Reply × State) => decide (¬ x.2.Harmed 0) &&
          ((Call.read [1] 1 2 none).run (.simple .small .reliable) x.2).any
            (fun (y : Reply × State) => decide (¬ y.2.Harmed 0))) = true))
    (by decide +kernel)
  obtain ⟨hlookup, hlatest, hpinned, hsmall, hrange, huntracked, hdisk, hlength, hcalls⟩ :=
    of_decide_eq_true hp
  simp only [Option.any_eq_true, Bool.and_eq_true, decide_eq_true_eq] at hcalls
  obtain ⟨x, hset, hcalm, y, hread, hcalm'⟩ := hcalls
  have hfits : ∀ record ∈ history, record.call.Fits Flags.small := fun record hrecord =>
    Call.fits geometry_small (hsmall record hrecord) (hrange record hrecord)
  have hends : ¬ (Call.set [2] [5, 6, 7, 8] none).Ends (.simple .small .reliable) 1 := by
    decide +kernel
  have hafter := AfterCalls.call (C := fun _ record u => record.call.Fits .small ∧
    ¬ record.call.Ends (.simple .small .reliable) 1 ∧ ¬ u.FlushFailed 0) _ x.1 .refl hset
      ⟨Call.fits geometry_small (by decide : (4 : Nat) ≤ 2147483648) trivial, hends,
        fun h => hcalm h.harmed⟩
  have hheld : ∀ i b, s.HasBlock 0 i b → b.diskBlockItem ≠ none := fun i b hb =>
    hdisk b (List.mem_of_getElem? hb)
  obtain ⟨buf, hbuf, hkept⟩ := pinned_readable
    (dataHyp_reliable geometry_small (.inl rfl))
    (init_covered (by decide) (by decide) (by decide) (by decide))
    (readHyp_reliable (by decide) 0) hrun hfits hlookup hpinned huntracked
    (fun i ⟨b, _, hb, _, hnone, _⟩ => hheld i b hb hnone) hafter
  obtain rfl : buf = [1, 2, 3, 4] := Option.some.inj (hbuf.symm.trans hlatest)
  obtain ⟨_, hreads⟩ := hkept 1 2 (by decide) (by decide) (by decide) fun p _ hp => by
    have hlt : p / 4 < (s.items 0).blocks.length := by
      rw [hlength]
      exact Nat.div_lt_of_lt_mul (Nat.lt_of_lt_of_le hp (by decide))
    exact ⟨_, List.getElem?_eq_getElem hlt, Or.inl (hheld _ _ (List.getElem?_eq_getElem hlt))⟩
  obtain ⟨reply, u, hcall, hdone⟩ := hreads none
  obtain rfl : y = (reply, u) := Option.some.inj (hread.symm.trans hcall)
  exact ⟨history, s, x.2, reply, u, hrun, hafter, hcall, (hdone fun h => hcalm' h.harmed).2⟩

/-- The flush of a pinned object finds no room on disk, and the object is gone. -/
theorem pinned_not_readable : ∃ history s t,
    Run (.simple .small .reliable) (.oneDir 10 4) history s ∧
      s.find 1 = some 1 ∧ (s.items 1).pinned = true ∧
      (∃ reply u, (Call.read [1] 0 4 none).run (.simple .small .reliable) s = some (reply, u) ∧
        reply.status.ok = true ∧ reply.buf = [1, 2, 3, 4]) ∧
      AfterCalls (.simple .small .reliable) (fun _ record _ =>
        ¬ record.call.Ends (.simple .small .reliable) 1) s t ∧
      ∃ reply u, (Call.read [1] 0 4 none).run (.simple .small .reliable) t = some (reply, u) ∧
        reply.status.ok = false := by
  obtain ⟨history, s, hrun, hp⟩ := Run.of_calls (.simple .small .reliable) (.oneDir 10 4)
    [.set [3] [1, 2, 3, 4] (some { mode := .writeThrough, pinned := true }),
      .set [1] [1, 2, 3, 4] (some { pinned := true })]
    (fun _ s => decide (s.find 1 = some 1 ∧ (s.items 1).pinned = true ∧
      ((Call.read [1] 0 4 none).run (.simple .small .reliable) s).any
        (fun (x : Reply × State) => decide (x.1.status.ok = true ∧ x.1.buf = [1, 2, 3, 4])) = true ∧
      ((Call.set [2] [5, 6, 7, 8] none).run (.simple .small .reliable) s).any
        (fun (x : Reply × State) =>
          ((Call.read [1] 0 4 none).run (.simple .small .reliable) x.2).any
            (fun (y : Reply × State) => !y.1.status.ok)) = true))
    (by decide +kernel)
  obtain ⟨hfind, hpinned, hbefore, hcalls⟩ := of_decide_eq_true hp
  simp only [Option.any_eq_true, Bool.not_eq_true', decide_eq_true_eq] at hbefore hcalls
  obtain ⟨z, hz, hok⟩ := hbefore
  obtain ⟨x, hset, y, hread, hfails⟩ := hcalls
  have hends : ¬ (Call.set [2] [5, 6, 7, 8] none).Ends (.simple .small .reliable) 1 := by
    decide +kernel
  have hafter := AfterCalls.call (C := fun _ record _ =>
    ¬ record.call.Ends (.simple .small .reliable) 1) _ x.1 .refl hset hends
  exact ⟨history, s, x.2, hrun, hfind, hpinned, ⟨z.1, z.2, hz, hok⟩, hafter, y.1, y.2, hread,
    hfails⟩

end Pinning

end StarCache
