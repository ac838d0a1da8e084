import StarCache.Foundation.EventLog
import StarCache.Properties.Conservation
import StarCache.Properties.Totality

/-!
# Sets that fail in the middle

The blocks of a set that fails go with its item, which has never been in the index. What the
set has put into the eviction policies for the blocks before stays there, unless an eviction
of the same call has taken it back. So nothing is left when the first block is the one that
fails, or when no block before it was of the kind that is put into a policy.
-/

namespace StarCache

open Prog MachineInt StarCacheImpl EventLog

namespace Event

/-- The cache id for which something is put into a policy. -/
def tracked : Event → Option CacheId
  | .memTrack key => some key.cacheId
  | .diskTrack id => some id
  | _ => none

theorem TracksMem.tracked {e : Event} {key : BlockKey} (h : e.TracksMem key) :
    e.tracked = some key.cacheId := by
  cases e with
  | memTrack => exact congrArg (fun key : BlockKey => some key.cacheId) h
  | _ => exact h.elim

theorem TracksDisk.tracked {e : Event} {id : CacheId} (h : e.TracksDisk id) :
    e.tracked = some id := by
  cases e with
  | diskTrack => exact congrArg some h
  | _ => exact h.elim

instance (key : BlockKey) : DecidablePred (TracksMem key) := fun e => by
  unfold TracksMem
  split <;> infer_instance

instance (key : BlockKey) : DecidablePred (EvictsMem key) := fun e => by
  unfold EvictsMem
  split <;> infer_instance

instance (id : CacheId) : DecidablePred (TracksDisk id) := fun e => by
  unfold TracksDisk
  split <;> infer_instance

instance (id : CacheId) : DecidablePred (EvictsDisk id) := fun e => by
  unfold EvictsDisk
  split <;> infer_instance

/-- What is put into a policy is given up by a pass that comes after it, and after the last
time that the same is put there. -/
def TakenBack (trace : List Event) : Event → Prop
  | .memTrack key => Since (EvictsMem key) (TracksMem key) trace
  | .diskTrack id => Since (EvictsDisk id) (TracksDisk id) trace
  | _ => True

instance (trace : List Event) : DecidablePred (TakenBack trace) := fun e => by
  unfold TakenBack
  split <;> infer_instance

end Event

/-- Whatever has been put into the policies for the cache id has been taken back. -/
def TakenBack (id : CacheId) (trace : List Event) : Prop :=
  ∀ e ∈ trace, e.tracked = some id → e.TakenBack trace

instance (id : CacheId) (trace : List Event) : Decidable (TakenBack id trace) :=
  inferInstanceAs (Decidable (∀ e ∈ trace, _))

/-- Nothing is left of the object that a call has begun to build under the id as the item `r`:
no entry in the index, none of the call in the eviction policies, and no charge but for what
the items of the index hold. -/
structure Forgotten (pf : Platform) (id : CacheId) (r : ItemRef) (t : State) : Prop where
  find : t.find id = none
  mem : ∀ key : BlockKey, key.cacheId = id → .memTrack key ∈ t.trace → ¬ t.MemTracked pf key
  disk : .diskTrack id ∈ t.trace → ¬ t.DiskTracked pf id
  unindexed : r ∉ t.indexedItems
  memCharge : t.memSpace.usedBytes = u64 ((t.itemsCharge pf t.indexedItems).sum +
    (t.segmentsCharge pf t.reachableSegments).sum : Nat)
  diskCharge : t.diskSpace.usedBytes = u64 (pf.flags.blockSize * t.heldBlocks.length : Nat) ∧
    ∀ block, t.diskSpace.Allocated block ↔ block ∈ t.heldBlocks

/-- The set is not refused, and gets to its loop over the blocks with the item `r`. -/
def Begins (rt : Runtime) (cacheKey : CacheKey) (buf : IOBuf) (options : Option WriteOptions)
    (s : State) (r : ItemRef) : Prop :=
  ¬ Refuses rt (rt.cachekey2id cacheKey) buf options s ∧
    ∃ u v, Unlinked rt.toPlatform (rt.cachekey2id cacheKey) s u ∧
      LoopStarts rt r buf options cacheKey u v

/-- `check_write` puts block `i` into memory. -/
def PutsInMem (rt : Runtime) (id : CacheId) (r : ItemRef) (options : Option WriteOptions) (i : Nat)
    (t : State) : Prop :=
  rt.promotionPolicy.checkWrite t.clock { t with clock := t.clock + 1 } (t.items r) ⟨id, i⟩
    options = some .mem

/-- The loop of the set starts in `v` with the item `r`, and after `k` blocks the writing of the
next one fails. -/
def FailsAt (rt : Runtime) (cacheKey : CacheKey) (buf : IOBuf) (options : Option WriteOptions)
    (s : State) (r : ItemRef) (v : State) (k : Nat) : Prop :=
  (∃ u, Unlinked rt.toPlatform (rt.cachekey2id cacheKey) s u ∧
    LoopStarts rt r buf options cacheKey u v) ∧
  ∃ w st x, Wrote rt (rt.cachekey2id cacheKey) r buf options v k w ∧
    writeBlock rt r ⟨rt.cachekey2id cacheKey, k⟩ (blockBytes rt.flags buf k) options w =
      some (st, x) ∧ st.ok = false

/-- No block before the `k`-th is put into an eviction policy: there is none, or the object is
pinned, and the cache has no disk layer or these blocks do not go to memory. -/
def Spared (rt : Runtime) (cacheKey : CacheKey) (buf : IOBuf) (options : Option WriteOptions)
    (s : State) (r : ItemRef) (v : State) (k : Nat) : Prop :=
  k = 0 ∨ options.any (·.pinned) = true ∧ (s.hasDiskLayer = false ∨
    ∀ i < k, ∀ u, Wrote rt (rt.cachekey2id cacheKey) r buf options v i u →
      ¬ PutsInMem rt (rt.cachekey2id cacheKey) r options i u)

/-! ## What the trace tells of the policies -/

section Tells

variable {pf : Platform} {sc : Scenario pf} {P : Action → Prop} {a : Action} {x y : World}
  {key : BlockKey} {id : CacheId}

/-- The call has the key in the memory policy exactly if its trace says so. -/
def State.TellsMem (pf : Platform) (s : State) (key : BlockKey) : Prop :=
  Tells (Event.TracksMem key) (Event.EvictsMem key) s.trace (s.MemTracked pf key)

def State.TellsDisk (pf : Platform) (s : State) (id : CacheId) : Prop :=
  Tells (Event.TracksDisk id) (Event.EvictsDisk id) s.trace (s.DiskTracked pf id)

theorem Step.tellsMem (hstep : Step sc a x y) (hinv : Inv sc x)
    (huntrack : a ≠ .untrack key.cacheId) (hpin : ∀ r, a ≠ .pin r)
    (h : x.state.TellsMem pf key) : y.state.TellsMem pf key := by
  unfold State.TellsMem at h ⊢
  rcases hstep.memPolicy hinv huntrack hpin with ⟨htrace, hsame⟩ | ⟨e, htrace, hnext⟩
  · rw [htrace]
    exact fun hentered => hsame.trans (h hentered)
  · rw [htrace]
    exact h.snoc Event.TracksMem.not_evicts hnext

theorem Step.tellsDisk (hstep : Step sc a x y) (hinv : Inv sc x) (huntrack : a ≠ .untrack id)
    (hpin : ∀ r, a ≠ .pin r) (h : x.state.TellsDisk pf id) : y.state.TellsDisk pf id := by
  unfold State.TellsDisk at h ⊢
  rcases hstep.diskPolicy hinv huntrack hpin with ⟨htrace, hsame⟩ | ⟨e, htrace, hnext⟩
  · rw [htrace]
    exact fun hentered => hsame.trans (h hentered)
  · rw [htrace]
    exact h.snoc Event.TracksDisk.not_evicts hnext

/-- What the trace tells of a cache id and of its block keys. -/
def State.Tells (pf : Platform) (s : State) (id : CacheId) : Prop :=
  (∀ key : BlockKey, key.cacheId = id → s.TellsMem pf key) ∧ s.TellsDisk pf id

theorem Runs.tells (h : Runs sc P x y) (hinv : Inv sc x) (huntrack : ¬ P (.untrack id))
    (hpin : ∀ r, ¬ P (.pin r)) (htells : x.state.Tells pf id) : y.state.Tells pf id := by
  have hboth : Inv sc y ∧ y.state.Tells pf id := by
    refine h.invariant (fun z => Inv sc z ∧ z.state.Tells pf id) ?_ ⟨hinv, htells⟩
    rintro a z w ha hstep ⟨hz, hmem, hdisk⟩
    have hpin' : ∀ r, a ≠ .pin r := fun r heq => hpin r (heq ▸ ha)
    refine ⟨hstep.inv hz, fun key hkey => ?_, ?_⟩
    · subst hkey
      exact hstep.tellsMem hz (fun heq => huntrack (heq ▸ ha)) hpin' (hmem key rfl)
    · exact hstep.tellsDisk hz (fun heq => huntrack (heq ▸ ha)) hpin' hdisk
  exact hboth.2

/-- Only steps that track the id or one of its block keys say so in the trace. -/
theorem Step.tracked (hstep : Step sc a x y) (htrack : a ≠ .track id) {e : Event}
    (he : e ∈ y.state.trace) (hid : e.tracked = some id) : e ∈ x.state.trace := by
  have hnew : ∀ {e' : Event}, e'.tracked ≠ some id → e ∈ x.state.trace ++ [e'] →
      e ∈ x.state.trace := by
    intro e' hne hmem
    rcases List.mem_append.mp hmem with hold | hnew
    · exact hold
    · rw [List.mem_singleton.mp hnew] at hid
      exact absurd hid hne
  cases hstep with
  | emit e' hplain =>
      refine hnew ?_ he
      intro htracked
      cases e' with
      | memTrack | diskTrack => exact hplain
      | _ => cases htracked
  | clearing | deleting | memEvict | diskEvict =>
      refine hnew ?_ he
      intro htracked
      cases htracked
  | memTrack key =>
      refine hnew ?_ he
      intro htracked
      exact htrack (congrArg Action.track (Option.some.inj htracked))
  | diskTrack id' =>
      refine hnew ?_ he
      intro htracked
      exact htrack (congrArg Action.track (Option.some.inj htracked))
  | collect heffect _ =>
      rw [heffect.eq] at he
      exact he
  | _ => exact he

/-- The call has put nothing into the policies for the id. -/
def State.Untold (s : State) (id : CacheId) : Prop := ∀ e ∈ s.trace, e.tracked ≠ some id

theorem Runs.untold (h : Runs sc P x y) (htrack : ¬ P (.track id)) (hx : x.state.Untold id) :
    y.state.Untold id := by
  refine h.invariant (fun z => z.state.Untold id) ?_ hx
  intro a z w ha hstep hz e he hid
  exact hz e (hstep.tracked (fun heq => htrack (heq ▸ ha)) he hid) hid

theorem State.Untold.tells {s : State} (h : s.Untold id) : s.Tells pf id := by
  constructor
  · rintro key rfl
    apply tells_of_fresh
    intro e he htracks
    exact h e he htracks.tracked
  · apply tells_of_fresh
    intro e he htracks
    exact h e he htracks.tracked

end Tells

/-! ## The deleters -/

/-- The options, the index, the policies and the trace are the same. -/
structure SameRecords (s t : State) : Prop where
  options : t.options = s.options
  index : t.accessIndex = s.accessIndex
  mem : t.memTracker = s.memTracker
  disk : t.diskTracker = s.diskTracker
  trace : t.trace = s.trace

theorem SameRecords.refl (s : State) : SameRecords s s := ⟨rfl, rfl, rfl, rfl, rfl⟩

theorem SameRecords.trans {s t u : State} (h : SameRecords s t) (h' : SameRecords t u) :
    SameRecords s u :=
  ⟨h'.options.trans h.options, h'.index.trans h.index, h'.mem.trans h.mem,
    h'.disk.trans h.disk, h'.trace.trans h.trace⟩

theorem freeBlocks_records {pf : Platform} {s : State} :
    Spec False (freeBlocks pf) (fun _ t => SameRecords s t) s := by
  unfold freeBlocks
  rw [spec_bind, spec_read, spec_bind]
  refine (spec_forEach (fun _ t => SameRecords s t) ?_ _ s (.refl s)).mono ?_
  · intro id rest t ht
    apply spec_zoom
    apply Spec.partial_of
    intro _ _ _
    exact ⟨ht.options, ht.index, ht.mem, ht.disk, ht.trace⟩
  · intro _ t ht
    exact ⟨ht.options, ht.index, ht.mem, ht.disk, ht.trace⟩

theorem collect_records {pf : Platform} {s t : State} (h : collect pf s = some ((), t)) :
    SameRecords s t := by
  obtain ⟨_, u, hitems, h⟩ := bind_eq_some.mp h
  obtain ⟨_, v, hsegments, h⟩ := bind_eq_some.mp h
  have hu : SameRecords s u := by
    cases hitems
    exact ⟨rfl, rfl, rfl, rfl, rfl⟩
  have hv : SameRecords u v := by
    cases hsegments
    exact ⟨rfl, rfl, rfl, rfl, rfl⟩
  exact (hu.trans hv).trans (freeBlocks_records.outcome h)

/-- The end of a scope. -/
theorem leave_records {pf : Platform} {s t : State} {locals : List Local}
    (h : collect pf { s with locals } = some ((), t)) : SameRecords s t := by
  have hsame := collect_records h
  exact ⟨hsame.options, hsame.index, hsame.mem, hsame.disk, hsame.trace⟩

theorem lock_records {s t : State} {unique : Bool} {key : BlockKey}
    (h : lock unique key s = some ((), t)) : SameRecords s t := by
  cases h
  exact ⟨rfl, rfl, rfl, rfl, rfl⟩

theorem unlock_records {s t : State} {unique : Bool} {key : BlockKey}
    (h : unlock unique key s = some ((), t)) : SameRecords s t := by
  cases h
  exact ⟨rfl, rfl, rfl, rfl, rfl⟩

theorem setMemBlock_records {pf : Platform} {s t : State} {r : ItemRef} {i : Nat}
    {block : Option MemBlockItem} (h : setMemBlock pf r i block s = some ((), t)) :
    SameRecords s t := by
  obtain ⟨_, _, hupdate, hcollect⟩ := bind_eq_some.mp h
  cases hupdate
  have hsame := collect_records hcollect
  exact ⟨hsame.options, hsame.index, hsame.mem, hsame.disk, hsame.trace⟩

theorem setDiskBlock_records {pf : Platform} {s t : State} {r : ItemRef} {i : Nat} {id : BlockId}
    (h : setDiskBlock pf r i id s = some ((), t)) : SameRecords s t := by
  obtain ⟨_, _, hupdate, hcollect⟩ := bind_eq_some.mp h
  cases hupdate
  have hsame := collect_records hcollect
  exact ⟨hsame.options, hsame.index, hsame.mem, hsame.disk, hsame.trace⟩

theorem SameRecords.untold {s t : State} {id : CacheId} (h : SameRecords s t)
    (hs : s.Untold id) : t.Untold id := by
  unfold State.Untold
  rw [h.trace]
  exact hs

theorem SameRecords.hasDiskLayer {s t : State} (h : SameRecords s t) :
    t.hasDiskLayer = s.hasDiskLayer := by
  unfold State.hasDiskLayer
  rw [h.options]

theorem SameRecords.find {s t : State} (h : SameRecords s t) (id : CacheId) :
    t.find id = s.find id := by
  unfold State.find
  rw [h.index]

theorem SameRecords.tells {pf : Platform} {s t : State} {id : CacheId} (h : SameRecords s t)
    (htells : s.Tells pf id) : t.Tells pf id := by
  constructor
  · intro key hkey
    unfold State.TellsMem State.MemTracked
    rw [h.mem, h.trace]
    exact htells.1 key hkey
  · unfold State.TellsDisk State.DiskTracked
    rw [h.disk, h.trace]
    exact htells.2

section Sets

variable {rt : Runtime} {sc : Scenario rt.toPlatform} {cacheKey : CacheKey} {buf : IOBuf}
  {options : Option WriteOptions} {s t u v x : State} {g : Ghost} {st : Status} {r : ItemRef}

/-! ## Blocks that are not tracked -/

theorem Runs.untold_evict {own : Own} {g' : Ghost}
    (h : Ran sc (Action.InEvict (some own)) s g t g') (hs : s.Untold own.id) : t.Untold own.id :=
  Runs.untold h.runs (fun hc => hc own rfl rfl) hs

/-- A block of a pinned object in memory, without a disk layer. -/
theorem writeMemBlock_untold {own : Own} {i : Nat} (hinv : Inv sc ⟨s, g⟩)
    (hprivate : s.Private (some own)) (hdisk : s.hasDiskLayer = false)
    (hwrite : writeMemBlock rt own.item ⟨own.id, i⟩ buf true s = some (st, t))
    (hs : s.Untold own.id) : t.Untold own.id := by
  have hstart : Ran sc (Action.InEvict (some own)) s g s g := .refl trivial
  obtain ⟨data, u, hdata, hwrite⟩ := bind_eq_some.mp hwrite
  obtain ⟨hueq, hclock, _⟩ := (blockBuffer_spec (T := False) buf s).outcome hdata
  have hu : Ran sc (Action.InEvict (some own)) s g u g := by
    rw [hueq]
    exact idle_ran hstart hclock
  cases data with
  | none =>
      cases hwrite
      exact Runs.untold_evict hu hs
  | some sbuf =>
      dsimp only at hwrite
      obtain ⟨found, v, halloc, hwrite⟩ := bind_eq_some.mp hwrite
      have hv := hu.trans ((allocBlockSegment_spec (hu.inv hinv)
        (hprivate.moves hu.runs fun _ h => h) _ _ _ _).outcome halloc).1
      have hvs := Runs.untold_evict hv hs
      cases found with
      | none =>
          cases hwrite
          exact hvs
      | some ref =>
          dsimp only at hwrite
          obtain ⟨block, w, hblock, hattach⟩ := bind_eq_some.mp hwrite
          obtain ⟨rfl, _⟩ := (writeBlock_spec (D := False) (W := fun _ => True) buf
            False.elim False.elim).outcome hblock
          obtain ⟨_, x, hlock, hattach⟩ := bind_eq_some.mp hattach
          obtain ⟨_, y, hset, hattach⟩ := bind_eq_some.mp hattach
          obtain ⟨_, z, hunlock, hattach⟩ := bind_eq_some.mp hattach
          have hsame := ((lock_records hlock).trans (setMemBlock_records hset)).trans
            (unlock_records hunlock)
          have hlayer : z.hasDiskLayer = false :=
            hsame.hasDiskLayer.trans (hv.static.hasDiskLayer.trans hdisk)
          obtain ⟨_, z', hread, hattach⟩ := bind_eq_some.mp hattach
          cases hread
          rw [hlayer] at hattach
          cases hattach
          exact hsame.untold hvs

/-- A block of a pinned object on disk. -/
theorem writeDiskBlock_untold {own : Own} {i : Nat} (hinv : Inv sc ⟨s, g⟩)
    (hprivate : s.Private (some own))
    (hwrite : writeDiskBlock rt own.item ⟨own.id, i⟩ buf true s = some (st, t))
    (hs : s.Untold own.id) : t.Untold own.id := by
  obtain ⟨found, u, halloc, hwrite⟩ := bind_eq_some.mp hwrite
  have hu := ((allocDiskBlock_spec hinv hprivate.evicts _).outcome halloc).1
  have hus : u.Untold own.id := Runs.untold_evict (hu.mono fun _ => Action.InDisk.inEvict) hs
  cases found with
  | none =>
      cases hwrite
      exact hus
  | some id =>
      dsimp only at hwrite
      obtain ⟨v, hbody, hcollect⟩ := scope_cases hwrite
      have hleave := leave_records hcollect
      obtain ⟨_, w, hhold, hbody⟩ := bind_eq_some.mp hbody
      cases hhold
      obtain ⟨st', x, hstore, hbody⟩ := bind_eq_some.mp hbody
      have heq := ((@DiskCache.writeBlock_spec _ False False _ [] _ False.elim False.elim id
        False.elim False.elim).outcome hstore).1.eq
      have hxs : x.Untold own.id := by
        rw [heq]
        exact hus
      have hvs : v.Untold own.id := by
        split at hbody
        next =>
          obtain ⟨_, y, hlock, hbody⟩ := bind_eq_some.mp hbody
          obtain ⟨_, z, hset, hbody⟩ := bind_eq_some.mp hbody
          obtain ⟨_, z', hunlock, hbody⟩ := bind_eq_some.mp hbody
          have hsame := ((lock_records hlock).trans (setDiskBlock_records hset)).trans
            (unlock_records hunlock)
          obtain ⟨_, _, hread, hbody⟩ := bind_eq_some.mp hbody
          cases hread
          cases hbody
          exact hsame.untold hxs
        next =>
          cases hbody
          exact hxs
      exact hleave.untold hvs

/-- A block of a pinned object, if it does not go to memory or there is no disk layer. -/
theorem writeBlock_untold {own : Own} {i : Nat} (hinv : Inv sc ⟨s, g⟩)
    (hprivate : s.Private (some own)) (hpinned : options.any (·.pinned) = true)
    (hwhere : s.hasDiskLayer = false ∨ ¬ PutsInMem rt own.id own.item options i s)
    (hwrite : writeBlock rt own.item ⟨own.id, i⟩ buf options s = some (st, t))
    (hs : s.Untold own.id) : t.Untold own.id := by
  obtain ⟨_, u, hget, hrest⟩ := bind_eq_some.mp hwrite
  have hu : u = s := by
    obtain ⟨_, v, hread, hderef⟩ := bind_eq_some.mp hget
    cases hread
    obtain ⟨_, _, hpair⟩ := Option.map_eq_some_iff.mp hderef
    cases hpair
    rfl
  subst hu
  obtain ⟨_, v, htick, hcheck⟩ := bind_eq_some.mp hrest
  cases htick
  obtain ⟨_, v, hread, hcheck⟩ := bind_eq_some.mp hcheck
  cases hread
  obtain ⟨location, w, hlocation, hplace⟩ := bind_eq_some.mp hcheck
  obtain ⟨_, hdecided, hpair⟩ := Option.map_eq_some_iff.mp hlocation
  cases hpair
  have hstart : Ran sc (Action.InEvict (some own)) u g { u with clock := u.clock + 1 } g :=
    idle_ran (.refl trivial) (Nat.le_succ _)
  cases location with
  | mem =>
      dsimp only at hplace
      rw [hpinned] at hplace
      refine writeMemBlock_untold (hstart.inv hinv) hprivate ?_ hplace hs
      exact hwhere.resolve_right fun hnot => hnot hdecided
  | disk =>
      dsimp only at hplace
      rw [hpinned] at hplace
      exact writeDiskBlock_untold (hstart.inv hinv) hprivate hplace hs
  | none =>
      cases hplace
      exact hs

/-- The set has written `k` of the `n` blocks of its item, and is going on. -/
structure SoFar (sc : Scenario rt.toPlatform) (g : Ghost) (own : Own) (pinned : Bool) (n k : Nat)
    (w : State) : Prop where
  inv : Inv sc ⟨w, g⟩
  writing : Writing rt.toPlatform own pinned w
  vacant : ∀ i, k ≤ i → i < n → w.HasBlock own.item i {}

theorem SoFar.writable {own : Own} {pinned : Bool} {n k : Nat} (hD : ¬ sc.D)
    (h : SoFar sc g own pinned n k s) (hk : k < n) : Writable sc own k buf s :=
  ⟨h.vacant k (Nat.le_refl _) hk, fun hd => absurd hd hD⟩

theorem SoFar.next {own : Own} {n k : Nat} (hD : ¬ sc.D)
    (h : SoFar sc g own (options.any (·.pinned)) n k s) (hk : k < n)
    (hwrite : writeBlock rt own.item ⟨own.id, k⟩ buf options s = some (st, t)) :
    (st.ok = true → SoFar sc g own (options.any (·.pinned)) n (k + 1) t) ∧
      (st.ok = false → s.Untold own.id → t.Untold own.id) ∧ t.hasDiskLayer = s.hasDiskLayer := by
  have hwrote := (StarCacheImpl.writeBlock_spec (T := False) h.inv h.writing (h.writable hD hk)
    False.elim).outcome hwrite
  refine ⟨fun hok => ?_, fun hfail => Runs.untold_evict (hwrote.failed hfail), ?_⟩
  · obtain ⟨hran, f, hf, hitem⟩ := hwrote.done hok
    refine ⟨hran.inv h.inv, hwrote.writing, fun i hi hlt => ?_⟩
    exact (filled_updateBlock hf hitem).2.2 i (by omega) (h.vacant i (by omega) hlt)
  · cases hok : st.ok with
    | true => exact (hwrote.done hok).1.static.hasDiskLayer
    | false => exact (hwrote.failed hok).static.hasDiskLayer

/-- Blocks that are not tracked leave nothing in the policies. -/
theorem SoFar.wrote {own : Own} {n k : Nat} (hD : ¬ sc.D)
    (h : SoFar sc g own (options.any (·.pinned)) n 0 s) (huntold : s.Untold own.id)
    (hwrote : Wrote rt own.id own.item buf options s k t) (hk : k ≤ n)
    (hspared : k = 0 ∨ options.any (·.pinned) = true ∧ (s.hasDiskLayer = false ∨
      ∀ i < k, ∀ u, Wrote rt own.id own.item buf options s i u →
        ¬ PutsInMem rt own.id own.item options i u)) :
    SoFar sc g own (options.any (·.pinned)) n k t ∧ t.Untold own.id ∧
      t.hasDiskLayer = s.hasDiskLayer := by
  induction hwrote with
  | start => exact ⟨h, huntold, rfl⟩
  | @next k u v st hwrote hwrite hok ih =>
      obtain ⟨hpinned, hwhere⟩ := hspared.resolve_left (Nat.succ_ne_zero k)
      obtain ⟨hsofar, huntoldu, hlayer⟩ := ih (by omega) (Or.inr ⟨hpinned,
        hwhere.imp_right fun hdisk i hi => hdisk i (by omega)⟩)
      obtain ⟨hnext, _, hlayer'⟩ := hsofar.next hD (by omega) hwrite
      refine ⟨hnext hok, ?_, hlayer'.trans hlayer⟩
      refine writeBlock_untold hsofar.inv hsofar.writing.hidden hpinned ?_ hwrite huntoldu
      exact hwhere.imp hlayer.trans fun hdisk => hdisk k (Nat.lt_succ_self k) u hwrote

/-- A loop that fails does so at some block. -/
theorem loop_fails {n i : Nat} {id : CacheId} (hwrote : Wrote rt id r buf options v i u)
    (hloop : forUntil (fun st => !st.ok) .OK (List.range' i n)
      (fun i => writeBlock rt r ⟨id, i⟩ (blockBytes rt.flags buf i) options) u = some (st, x))
    (hfail : st.ok = false) :
    ∃ k w, k < i + n ∧ Wrote rt id r buf options v k w ∧
      writeBlock rt r ⟨id, k⟩ (blockBytes rt.flags buf k) options w = some (st, x) := by
  induction n generalizing i u with
  | zero =>
      cases hloop
      cases hfail
  | succ n ih =>
      rw [List.range'_succ, forUntil] at hloop
      obtain ⟨st', y, hwrite, hloop⟩ := bind_eq_some.mp hloop
      cases hok : st'.ok with
      | false =>
          rw [hok] at hloop
          cases hloop
          exact ⟨i, u, by omega, hwrote, hwrite⟩
      | true =>
          rw [hok] at hloop
          obtain ⟨k, w, hk, hwrote', hwrite'⟩ := ih (hwrote.next hwrite hok) hloop
          exact ⟨k, w, by omega, hwrote', hwrite'⟩

/-! ## From the call to the failure -/

/-- The item that the loop starts with is out of sight, and so far nothing has been tracked
for it. -/
theorem loopStarts_untold (hinv : Inv sc ⟨u, g⟩) (hD : ¬ sc.D)
    (hnone : u.find (rt.cachekey2id cacheKey) = none) (huntold : u.Untold (rt.cachekey2id cacheKey))
    (h : LoopStarts rt r buf options cacheKey u v) :
    Inv sc ⟨v, g⟩ ∧ v.Untold (rt.cachekey2id cacheKey) ∧ v.hasDiskLayer = u.hasDiskLayer ∧
      Writing rt.toPlatform ⟨r, rt.cachekey2id cacheKey⟩ (options.any (·.pinned)) v ∧
      ∀ i < blockCountOf rt.flags buf.length, v.HasBlock r i {} := by
  obtain ⟨w, halloc, hpin⟩ := h
  have hhidden : u.Private (some ⟨u.itemCount, rt.cachekey2id cacheKey⟩) := by
    rintro o ⟨⟩
    exact ⟨hnone, fun id hfind => Nat.lt_irrefl _ (hinv.wf.indexed_lt hfind)⟩
  have hstart : Ran sc (Action.Creates (some ⟨u.itemCount, rt.cachekey2id cacheKey⟩)) u g
      { u with clock := u.clock + 1 } g := idle_ran (.refl trivial) (Nat.le_succ _)
  obtain ⟨hran, hfound⟩ := (allocCacheItem_creates (hstart.inv hinv) hhidden cacheKey buf.length _
    fun h => absurd h hD).outcome halloc
  obtain ⟨rfl, hcreated⟩ := hfound r rfl
  have hcreate := hstart.trans hran
  have huntoldw : w.Untold (rt.cachekey2id cacheKey) :=
    Runs.untold hcreate.runs (fun hc => hc _ rfl rfl) huntold
  have hhold := ((hold_spec (T := False) hcreate (x := .item u.itemCount)
    hcreated.live).outcome rfl).1
  have hprivate := hhidden.moves hcreate.runs fun _ h => h
  have hblank : Blank rt ⟨u.itemCount, rt.cachekey2id cacheKey⟩ buf
      { w with locals := .item u.itemCount :: w.locals } :=
    ⟨hprivate, List.mem_cons_self, cacheKey, _, rfl, hcreated.item⟩
  obtain ⟨hpinned, hitem, heq⟩ := (pinNew_spec (T := False) (hhold.inv hinv) hblank (Nat.le_refl _)
    (options.any (·.pinned))).outcome hpin
  obtain ⟨hwriting, hvacant⟩ := hblank.writing hitem heq
  refine ⟨hpinned.inv (hhold.inv hinv), ?_,
    hpinned.static.hasDiskLayer.trans hhold.static.hasDiskLayer, hwriting, hvacant⟩
  rw [heq]
  exact huntoldw

/-- A set that returns without a refusal has begun with the next item. -/
theorem begins_of_set (hinv : Inv sc ⟨s, g⟩) (hD : ¬ sc.D)
    (hset : StarCacheImpl.set rt cacheKey buf options s = some (st, t))
    (hgo : ¬ Refuses rt (rt.cachekey2id cacheKey) buf options s) :
    Begins rt cacheKey buf options s s.itemCount := by
  rcases set_cases hset with ⟨hrefuses, _⟩ | ⟨u, w, _, hunlinked, hwrite, _⟩
  · exact absurd hrefuses hgo
  obtain ⟨r, v, _, _, ⟨x, halloc, hpin⟩, _⟩ := writeCacheItem_loops hwrite
  have hunlink := (unlinked_ran hinv hunlinked).1
  have hstart : Ran sc Action.InCreate u g { u with clock := u.clock + 1 } g :=
    idle_ran (.refl trivial) (Nat.le_succ _)
  obtain ⟨rfl, _⟩ := ((allocCacheItem_spec (hstart.inv (hunlink.inv hinv)) cacheKey buf.length _
    fun h => absurd h hD).outcome halloc).2 r rfl
  have hcount : u.itemCount = s.itemCount := Runs.itemCount hunlink.runs fun h => h
  rw [← hcount]
  exact ⟨hgo, u, v, hunlinked, x, halloc, hpin⟩

/-- The set has failed in its loop: nothing is in the index for it, the trace tells what the
policies have, and that is nothing when no block before the failure was to be tracked. -/
theorem failed_at (hinv : Inv sc ⟨s, g⟩) (hD : ¬ sc.D) (htrace : s.trace = [])
    (hset : StarCacheImpl.set rt cacheKey buf options s = some (st, t)) (hfail : st.ok = false)
    (hbegins : Begins rt cacheKey buf options s r) :
    t.find (rt.cachekey2id cacheKey) = none ∧ ¬ t.Indexed r ∧
      t.Tells rt.toPlatform (rt.cachekey2id cacheKey) ∧
      ∃ v k, FailsAt rt cacheKey buf options s r v k ∧
        (Spared rt cacheKey buf options s r v k → t.Untold (rt.cachekey2id cacheKey)) := by
  obtain ⟨hgo, u, v, hunlinked, hstarts⟩ := hbegins
  rcases set_cases hset with ⟨hrefuses, _⟩ | ⟨u', w, y, hunlinked', hwrite, hcollect, heq⟩
  · exact absurd hrefuses hgo
  obtain rfl := unlinked_unique hunlinked hunlinked'
  obtain ⟨r', v', st', x, hstarts', hloop, hok, hleave⟩ := writeCacheItem_loops hwrite
  obtain ⟨rfl, rfl⟩ : r' = r ∧ v' = v := by
    obtain ⟨_, halloc, hpin⟩ := hstarts
    obtain ⟨_, halloc', hpin'⟩ := hstarts'
    cases halloc.symm.trans halloc'
    cases hpin.symm.trans hpin'
    exact ⟨rfl, rfl⟩
  have hfail' : st'.ok = false := by
    cases hst : st'.ok with
    | false => rfl
    | true => exact absurd (hok hst) (by rw [hfail]; exact Bool.false_ne_true)
  obtain ⟨rfl, locals, hleave⟩ := hleave hfail'
  -- up to the loop
  obtain ⟨hunlink, hnone⟩ := unlinked_ran hinv hunlinked
  have huntold : u.Untold (rt.cachekey2id cacheKey) := by
    refine Runs.untold hunlink.runs (fun h => h) ?_
    intro e he
    rw [htrace] at he
    cases he
  have hbuf : 0 < buf.length := List.length_pos_iff.mpr fun h => hgo (Or.inl h)
  obtain ⟨hinvv, huntoldv, hlayer, hwriting, hvacant⟩ :=
    loopStarts_untold (hunlink.inv hinv) hD hnone huntold hstarts
  -- the loop
  have hend : u32 ((buf.length - 1) / rt.flags.blockSize : Nat) <
      blockCountOf rt.flags buf.length := by
    unfold blockCountOf
    rw [if_neg (by omega), u32_natCast]
    have := Nat.mod_le ((buf.length - 1) / rt.flags.blockSize) 4294967296
    omega
  obtain ⟨hwritten, hran, _⟩ := (writeLoop_spec (T := False) hinvv hwriting _ List.nodup_range
    (fun i hi => ⟨hvacant i (by have := List.mem_range.mp hi; omega), fun h => absurd h hD⟩)
    False.elim).outcome hloop
  have htells : x.Tells rt.toPlatform (rt.cachekey2id cacheKey) :=
    Runs.tells hran.runs hinvv (fun hne => hne rfl) (fun _ h => h) huntoldv.tells
  -- the way out
  have hlast : SameRecords y t := by
    rw [heq]
    exact ⟨rfl, rfl, rfl, rfl, rfl⟩
  have hsame := ((leave_records hleave).trans (leave_records hcollect)).trans hlast
  obtain ⟨hhidden, hunindexed⟩ := hwritten.hidden _ rfl
  refine ⟨(hsame.find _).trans hhidden, ?_, hsame.tells htells, ?_⟩
  · rintro ⟨id, hid⟩
    exact hunindexed id ((hsame.find id).symm.trans hid)
  -- the block that fails
  rw [List.range_eq_range'] at hloop
  obtain ⟨k, w, hk, hwrote, hwrite⟩ := loop_fails .start hloop hfail'
  refine ⟨v', k, ⟨⟨u, hunlinked, hstarts⟩, w, st, x, hwrote, hwrite, hfail'⟩, fun hspared => ?_⟩
  have hsofar : SoFar sc g ⟨r', rt.cachekey2id cacheKey⟩ (options.any (·.pinned))
      (blockCountOf rt.flags buf.length) 0 v' :=
    ⟨hinvv, hwriting, fun i _ hi => hvacant i hi⟩
  have hspared' := hspared
  unfold Spared at hspared'
  rw [← hunlink.static.hasDiskLayer, ← hlayer] at hspared'
  obtain ⟨hwritten', huntoldw, _⟩ := hsofar.wrote hD huntoldv hwrote (by omega) hspared'
  exact hsame.untold ((hwritten'.next hD (by omega) hwrite).2.1 hfail' huntoldw)

end Sets

/-- When a set fails after it has begun to write blocks, it does so at some block, and nothing is
left of its object if no block before that one was of the kind that is put into an eviction
policy. In general nothing is left exactly if what the set has put into the policies has been
taken back by later passes of the same call. -/
theorem failed_set_forgotten {rt : Runtime} {options : CacheOptions} {history : List Record}
    {s t : State} {reply : Reply} {cacheKey : CacheKey} {buf : IOBuf}
    {writeOptions : Option WriteOptions} {r : ItemRef} (hrun : Run rt options history s)
    (hcall : (Call.set cacheKey buf writeOptions).run rt s = some (reply, t))
    (hbegins : Begins rt cacheKey buf writeOptions s.reset r) (hfail : reply.status.ok = false) :
    (∃ v k, FailsAt rt cacheKey buf writeOptions s.reset r v k ∧
      (Spared rt cacheKey buf writeOptions s r v k →
        Forgotten rt.toPlatform (rt.cachekey2id cacheKey) r t)) ∧
      (Forgotten rt.toPlatform (rt.cachekey2id cacheKey) r t ↔
        TakenBack (rt.cachekey2id cacheKey) t.trace) := by
  obtain ⟨val, hsound⟩ := hrun.sound
  obtain ⟨hwf, hquiet⟩ := (Run.call _ _ hrun hcall).quiet
  obtain ⟨hfind, hunindexed, ⟨hmem, hdisk⟩, v, k, hfails, huntold⟩ :=
    failed_at hsound.inv (fun h => h) rfl (run_set.mp hcall).1 hfail hbegins
  have hforgotten : TakenBack (rt.cachekey2id cacheKey) t.trace →
      Forgotten rt.toPlatform (rt.cachekey2id cacheKey) r t := by
    intro hback
    refine ⟨hfind, ?_, ?_, ?_, hwf.memCharged hquiet, hwf.diskCharged hquiet⟩
    · intro key hkey he htracked
      exact (hmem key hkey ⟨_, he, rfl⟩).mp htracked (hback _ he (congrArg some hkey))
    · intro he htracked
      exact (hdisk ⟨_, he, rfl⟩).mp htracked (hback _ he rfl)
    · intro hindexed
      exact hunindexed (t.mem_indexedItems.mp hindexed)
  refine ⟨⟨v, k, hfails, fun hspared => hforgotten ?_⟩, ?_, hforgotten⟩
  · intro e he htracked
    exact absurd htracked (huntold hspared e he)
  · intro hforgotten e he htracked
    cases e with
    | memTrack key =>
        have hkey : key.cacheId = rt.cachekey2id cacheKey := Option.some.inj htracked
        by_contra hleft
        exact hforgotten.mem key hkey he ((hmem key hkey ⟨_, he, rfl⟩).mpr hleft)
    | diskTrack id =>
        obtain rfl : id = rt.cachekey2id cacheKey := Option.some.inj htracked
        by_contra hleft
        exact hforgotten.disk he ((hdisk ⟨_, he, rfl⟩).mpr hleft)
    | _ => cases htracked

/-- Little memory, and no disk layer. -/
def noDisk : CacheOptions := ⟨8, [], by decide⟩

/-- The second block of a pinned object finds no room in a cache without a disk layer. -/
theorem failed_set_forgotten_small : ∃ reply t,
    (Call.set [1] [1, 2, 3, 4, 5, 6, 7, 8] (some { pinned := true })).run
        (.simple .small .reliable) (StarCacheImpl.init (.simple .small .reliable) noDisk) =
          some (reply, t) ∧
      reply.status.ok = false ∧ Forgotten (.simple .small .reliable) 1 0 t := by
  have hcall : ((Call.set [1] [1, 2, 3, 4, 5, 6, 7, 8] (some { pinned := true })).run
      (.simple .small .reliable) (StarCacheImpl.init (.simple .small .reliable) noDisk)).any
        (fun x => !x.1.status.ok) = true := by
    decide +kernel
  obtain ⟨⟨reply, t⟩, hrun, hp⟩ := (Option.any_eq_true _ _).mp hcall
  have hfail : reply.status.ok = false := by simpa using hp
  have hgo : ¬ Refuses (.simple .small .reliable) 1 [1, 2, 3, 4, 5, 6, 7, 8]
      (some { pinned := true })
      (StarCacheImpl.init (.simple .small .reliable) noDisk).reset := by
    rintro (hempty | hbusy | ⟨r, hfind, _⟩)
    · cases hempty
    · exact absurd hbusy (by decide +kernel)
    · cases hfind
  have hinit : Run (.simple .small .reliable) noDisk []
      (StarCacheImpl.init (.simple .small .reliable) noDisk) := .init
  obtain ⟨val, hsound⟩ := hinit.sound
  have hbegins := begins_of_set hsound.inv (fun h => h) (run_set.mp hrun).1 hgo
  obtain ⟨⟨v, k, _, hforgotten⟩, _⟩ := failed_set_forgotten hinit hrun hbegins hfail
  exact ⟨reply, t, hrun, hfail, hforgotten (Or.inr ⟨rfl, Or.inl rfl⟩)⟩

/-- The write of the second block fails, and the id of the first one stays in the disk policy. -/
theorem failed_set_tracked : ∃ reply t,
    (Call.set [1] [1, 2, 3, 4, 5, 6, 7, 8] (some { mode := .writeThrough })).run
        (.simple .small (.failingWrite 8))
        (StarCacheImpl.init (.simple .small (.failingWrite 8)) (.oneDir 100 16)) =
          some (reply, t) ∧
      Begins (.simple .small (.failingWrite 8)) [1] [1, 2, 3, 4, 5, 6, 7, 8]
        (some { mode := .writeThrough })
        (StarCacheImpl.init (.simple .small (.failingWrite 8)) (.oneDir 100 16)).reset 0 ∧
      reply.status.ok = false ∧ t.find 1 = none ∧ (∃ e ∈ t.trace, e.TracksDisk 1) ∧
      t.DiskTracked (.simple .small (.failingWrite 8)) 1 ∧
      ¬ Forgotten (.simple .small (.failingWrite 8)) 1 0 t := by
  have hcall : ((Call.set [1] [1, 2, 3, 4, 5, 6, 7, 8] (some { mode := .writeThrough })).run
      (.simple .small (.failingWrite 8))
      (StarCacheImpl.init (.simple .small (.failingWrite 8)) (.oneDir 100 16))).any (fun x =>
        !x.1.status.ok && decide (x.2.find 1 = none) &&
          decide (∃ e ∈ x.2.trace, e.TracksDisk 1) &&
            decide (x.2.DiskTracked (.simple .small (.failingWrite 8)) 1)) = true := by
    decide +kernel
  obtain ⟨⟨reply, t⟩, hrun, hp⟩ := (Option.any_eq_true _ _).mp hcall
  simp only [Bool.and_eq_true, Bool.not_eq_true', decide_eq_true_eq] at hp
  obtain ⟨⟨⟨hfail, hfind⟩, htracks⟩, htracked⟩ := hp
  have hgo : ¬ Refuses (.simple .small (.failingWrite 8)) 1 [1, 2, 3, 4, 5, 6, 7, 8]
      (some { mode := .writeThrough })
      (StarCacheImpl.init (.simple .small (.failingWrite 8)) (.oneDir 100 16)).reset := by
    rintro (hempty | hbusy | ⟨r, hfind, _⟩)
    · cases hempty
    · exact absurd hbusy (by decide +kernel)
    · cases hfind
  have hinit : Run (.simple .small (.failingWrite 8)) (.oneDir 100 16) []
      (StarCacheImpl.init (.simple .small (.failingWrite 8)) (.oneDir 100 16)) := .init
  obtain ⟨val, hsound⟩ := hinit.sound
  have hbegins := begins_of_set hsound.inv (fun h => h) (run_set.mp hrun).1 hgo
  refine ⟨reply, t, hrun, hbegins, hfail, hfind, htracks, htracked, fun h => ?_⟩
  obtain ⟨e, he, htracks⟩ := htracks
  exact h.disk (htracks.eq ▸ he) htracked

end StarCache
