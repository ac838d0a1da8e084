import StarCache.Impl.Public
import StarCache.Refinement.ReadItem
import StarCache.Refinement.Write

/-!
# The public operations

Each public call is a run of the transition system. What a call may do is told by the
actions it takes: only a set publishes, only a set and a remove unlink an item that
holds something, and only a pin and an unpin touch the pinned bit of an item that is in
the index already.
-/

namespace StarCache

open Prog MachineInt

namespace Action

def InRemove (id : CacheId) : Action → Prop
  | .other | .track _ | .untrack _ | .change _ => True
  | .remove id' => id' = id
  | _ => False

/-- What pinning and unpinning of such an item may do. -/
def InPin (p : ItemRef → Prop) : Action → Prop
  | .other | .track _ | .untrack _ => True
  | .pin r => p r
  | _ => False

/-- What the loops of `_unpin_cache_item` may do. -/
def InTrack : Action → Prop
  | .other | .track _ => True
  | _ => False

theorem InTrack.inPin {p : ItemRef → Prop} {a : Action} (h : a.InTrack) : a.InPin p := by
  cases a with
  | other | track _ => trivial
  | _ => exact False.elim h

end Action

/-- Between calls nothing is held. -/
structure Quiet (s : State) : Prop where
  collected : Collected s
  locals : s.locals = []
  memHandles : s.memHandles = []
  diskHandles : s.diskHandles = []

/-- A call leaves references and handles as it has found them. -/
structure Returns (s t : State) : Prop where
  collected : Collected s → Collected t
  locals : t.locals = s.locals
  memHandles : t.memHandles = s.memHandles
  diskHandles : t.diskHandles = s.diskHandles

theorem Returns.refl (s : State) : Returns s s := ⟨id, rfl, rfl, rfl⟩

theorem Returns.quiet {s t : State} (h : Returns s t) (hs : Quiet s) : Quiet t :=
  ⟨h.collected hs.collected, h.locals.trans hs.locals, h.memHandles.trans hs.memHandles,
    h.diskHandles.trans hs.diskHandles⟩

section Quiet

variable {pf : Platform} {s : State} (hwf : WF pf s) (hquiet : Quiet s)

include hwf hquiet

theorem Quiet.not_memBusy (key : BlockKey) : ¬ s.MemBusy pf key := by
  rintro ⟨htracked, hbusy⟩
  have hpolicy := hwf.memTracker
  rw [hquiet.memHandles] at hpolicy
  exact hbusy (hpolicy.idle_of_tracked htracked)

theorem Quiet.not_diskBusy (id : CacheId) : ¬ s.DiskBusy pf id := by
  rintro ⟨htracked, hbusy⟩
  have hpolicy := hwf.diskTracker
  rw [hquiet.diskHandles] at hpolicy
  exact hbusy (hpolicy.idle_of_tracked htracked)

end Quiet

/-- What is held by references alone keeps everything alive. -/
theorem Collected.of_eq {s t : State} (h : Collected s)
    (hblocks : ∀ r, (t.items r).blocks = (s.items r).blocks)
    (hindex : t.accessIndex = s.accessIndex) (hlocals : t.locals = s.locals)
    (hlive : t.liveItems = s.liveItems) (hsegments : t.liveSegments = s.liveSegments)
    (hdisk : t.liveBlocks = s.liveBlocks) : Collected t := by
  refine ⟨fun r hr => ?_, fun g hg => ?_, fun id hid => ?_⟩
  · rw [hlive] at hr
    have := h.item r hr
    unfold State.itemHeld at this ⊢
    rwa [hindex, hlocals]
  · rw [hsegments] at hg
    have := h.segment g hg
    unfold State.segmentHeld at this ⊢
    simpa only [hlive, hblocks, hlocals] using this
  · rw [hdisk] at hid
    have := h.block id hid
    unfold State.blockHeld at this ⊢
    simpa only [hlive, hblocks, hlocals] using this

/-- The pinned bit refers to nothing. -/
theorem Collected.repin {s t : State} {r : ItemRef} {pinned : Bool} (h : Collected s)
    (heq : t = { s with
      items := Function.update s.items r { s.items r with pinned }
      memTracker := t.memTracker, diskTracker := t.diskTracker, trace := t.trace
      locks := t.locks }) : Collected t := by
  rw [heq]
  refine h.of_eq (fun r' => ?_) rfl rfl rfl rfl rfl
  dsimp only
  rw [Function.update_apply]
  split
  next heq => rw [heq]
  next => rfl

namespace StarCacheImpl

variable {rt : Runtime} {sc : Scenario rt.toPlatform} {s t : State} {g : Ghost} {r : ItemRef}
  {id : CacheId} {cacheKey : CacheKey} {p : ItemRef → Prop}

/-! ## Reading -/

theorem lookupItem_iff : lookupItem rt s cacheKey = some r ↔
    s.find (rt.cachekey2id cacheKey) = some r ∧ (s.items r).cacheKey = cacheKey ∧
      (s.items r).released = false := by
  unfold lookupItem
  simp [Option.filter_eq_some_iff]

/-- The read of an item that has been found in the index. -/
theorem readFound_spec {T H : Prop} (hinv : Inv sc ⟨s, g⟩)
    (hfound : s.find id = some r) (options : Option ReadOptions) {offset : Int} {o size : Nat}
    (hoffset : sc.D → offset = o ∧ o + size < 18446744073709551616 ∨
      ¬ T ∧ ∀ i k, ¬ sc.whole r i k)
    (haddr : sc.D → Addressable rt.flags (sc.val r).length) (hdata : T → sc.D) (hsub : H → T)
    (hwhole : H → Throughout rt.flags (sc.whole r) o (o + min size ((sc.val r).length - o)))
    (hdefined : T → sc.T ∨
      Readable rt.flags BlockItem.Cached s r o (o + min size ((sc.val r).length - o)))
    (hfull : H →
      (sc.Reads ∧ Readable rt.flags BlockItem.Holds s r o (o + min size ((sc.val r).length - o))) ∨
        Readable rt.flags BlockItem.Cached s r o (o + min size ((sc.val r).length - o))) :
    Spec T (scope rt.toPlatform do
        hold (.item r)
        readCacheItem rt id r offset size options) (fun res t =>
      Ran sc Action.InRead s g t g ∧ Returns s t ∧
      (sc.D → offset = o ∧ o + size < 18446744073709551616 → res.1.ok = true →
        res.2 = ((sc.val r).drop o).take size) ∧
      (H → res.1.ok = true ∨ sc.Reads ∧ t.Harmed r) ∧
      (H → ReadsQuietly rt options s r o (o + min size ((sc.val r).length - o)) →
        res.1.ok = true)) s := by
  have hstart : Ran sc Action.InRead s g s g := .refl trivial
  refine (scope_spec hstart (fun _ => g) (fun res t =>
    (sc.D → offset = o ∧ o + size < 18446744073709551616 → res.1.ok = true →
      res.2 = ((sc.val r).drop o).take size) ∧
      (H → res.1.ok = true ∨ sc.Reads ∧ t.Harmed r) ∧
      (H → ReadsQuietly rt options s r o (o + min size ((sc.val r).length - o)) →
        res.1.ok = true)) hinv ?_).mono ?_
  · rw [spec_bind]
    have halive : s.Alive (.item r) := hinv.wf.indexed_live hfound
    refine (hold_spec hstart halive).mono ?_
    rintro _ u ⟨hu, rfl⟩
    refine (readCacheItem_spec (hu.inv hinv) List.mem_cons_self (hinv.wf.home _ r hfound) options
      hoffset haddr hdata hsub hwhole hdefined (fun _ => hfound) hfull).mono ?_
    rintro res t ⟨ht, hres⟩
    exact ⟨hu.trans ht, hres⟩
  · rintro res t ⟨ht, hlocals, hcollected, u, ⟨hbytes, hok⟩, heffect⟩
    refine ⟨ht, ⟨fun _ => hcollected, hlocals, ht.memHandles, ht.diskHandles⟩, hbytes, ?_⟩
    rw [heffect.eq]
    exact hok

/-! ## Removal -/

theorem remove_spec (hinv : Inv sc ⟨s, g⟩) : Spec sc.T (remove rt cacheKey) (fun st t =>
      Ran sc (Action.InRemove (rt.cachekey2id cacheKey)) s g t g ∧ Returns s t ∧
      (st.ok = true → t.find (rt.cachekey2id cacheKey) = none)) s := by
  have hstart : Ran sc (Action.InRemove (rt.cachekey2id cacheKey)) s g s g := .refl trivial
  unfold remove
  rw [spec_bind, spec_read]
  dsimp only
  cases hfilter : (s.find (rt.cachekey2id cacheKey)).filter fun r =>
      (s.items r).cacheKey == cacheKey with
  | none =>
      rw [spec_pure]
      exact ⟨hstart, .refl s, fun h => by cases h⟩
  | some r =>
      have hfound : s.find (rt.cachekey2id cacheKey) = some r :=
        (Option.filter_eq_some_iff.mp hfilter).1
      refine (scope_spec hstart (fun _ => g) (fun st t => st.ok = true →
        t.find (rt.cachekey2id cacheKey) = none) hinv ?_).mono ?_
      · rw [spec_bind]
        have halive : s.Alive (.item r) := hinv.wf.indexed_live hfound
        refine (hold_spec hstart halive).mono ?_
        rintro _ u ⟨hu, rfl⟩
        have hactive := hinv.wf.active _ r hfound
        have hchanged : ((s.items r).setReleased true).1 = true := by
          unfold CacheItem.setReleased
          rw [show (s.items r).released = false from hactive]
          rfl
        unfold setReleased updateItem
        simp only [spec_bind, spec_read, spec_modify, spec_pure]
        rw [if_pos hchanged, spec_bind]
        refine (removeCacheItem_spec (P := Action.InRemove (rt.cachekey2id cacheKey)) (hu.inv hinv)
          trivial hfound List.mem_cons_self trivial trivial (Or.inl rfl) true).mono ?_
        rintro _ t ⟨ht, hnone, _⟩
        rw [spec_pure]
        exact ⟨hu.trans ht, fun _ => hnone⟩
      · rintro st t ⟨ht, hlocals, hcollected, u, hnone, heffect⟩
        refine ⟨ht, ⟨fun _ => hcollected, hlocals, ht.memHandles, ht.diskHandles⟩, fun hok => ?_⟩
        rw [heffect.find]
        exact hnone hok

/-! ## Pinning -/

/-- Pinned items of a cache with disks need not be tracked on disk, and those of a cache
without disks not at all. -/
theorem pinned_ran (hinv : Inv sc ⟨s, g⟩) (hp : p r) :
    Ran sc (Action.InPin p) s g (s.withItem r { s.items r with pinned := true }) g := by
  have hstart : Ran sc (Action.InPin p) s g s g := .refl trivial
  have hP : Action.InPin p (.pin r) := hp
  have hpin := hstart.step (t := s.withItem r { s.items r with pinned := true }) hP
    (.setPinned r true) (fun _ h => h) rfl rfl
  have hblock : ∀ {r' i b}, (s.withItem r { s.items r with pinned := true }).HasBlock r' i b →
      s.HasBlock r' i b := by
    intro r' i b hb
    rw [State.hasBlock_withItem] at hb
    split at hb
    next heq => exact heq ▸ hb
    next => exact hb
  have hbit : ∀ {r'}, (s.items r').pinned = true →
      ((s.withItem r { s.items r with pinned := true }).items r').pinned = true := by
    intro r' h
    rw [State.withItem_items]
    split
    next => rfl
    next => exact h
  refine hpin.settle (fun id' r' i b hf hb hne hfree => ?_) (fun id' r' i b hf hb hne hbit' => ?_)
    (fun id' r' hf => ?_)
  · exact hinv.memEvictable id' r' i b hf (hblock hb) hne fun hl => hfree ⟨hbit hl.1, hl.2⟩
  · refine hinv.diskEvictable id' r' i b hf (hblock hb) hne ?_
    cases hp : (s.items r').pinned with
    | false => rfl
    | true => rw [hbit hp] at hbit'; cases hbit'
  · rcases hinv.nonEmpty id' r' hf with ⟨i, b, hb, hne⟩ | h
    · refine Or.inl ⟨i, b, ?_, hne⟩
      rw [State.hasBlock_withItem]
      split
      next heq => exact heq ▸ hb
      next => exact hb
    · exact Or.inr h

/-- What `pin` leaves of the state: the bit is set, and the keys of the item are not tracked
any more where that protects it. -/
structure Pinned (pf : Platform) (s : State) (id : CacheId) (r : ItemRef) (t : State) : Prop where
  eq : t = { s with
    items := Function.update s.items r { s.items r with pinned := true }
    memTracker := t.memTracker, diskTracker := t.diskTracker, trace := t.trace
    locks := t.locks }
  disk : (s.items r).pinned = false → s.hasDiskLayer = true → ¬ t.DiskTracked pf id

theorem pinCacheItem_spec (hinv : Inv sc ⟨s, g⟩) (hfound : s.find id = some r)
    (hp : (s.items r).pinned = false → p r) :
    Spec sc.T (pinCacheItem rt id r) (fun st t => Ran sc (Action.InPin p) s g t g ∧
      st.ok = true ∧ Pinned rt.toPlatform s id r t) s := by
  have hlive := hinv.wf.indexed_live hfound
  have hitem : ((s.withItem r { s.items r with pinned := true }).items r).pinned = true := by
    rw [State.withItem_items, if_pos rfl]
  unfold pinCacheItem setPinned updateItem
  simp only [spec_bind, spec_read, spec_modify, spec_pure]
  refine spec_ite (fun hchanged => ?_) fun hsame => ?_
  · have hfree : (s.items r).pinned = false := by
      simpa [CacheItem.setPinned] using hchanged
    have hpin := pinned_ran hinv (hp hfree)
    have hinvp := hpin.inv hinv
    have hP : Action.InPin p (.pin r) := hp hfree
    simp only [spec_bind, spec_read]
    refine spec_ite (fun hlayer => ?_) fun hlayer => ?_
    · have hstep := hpin.step hP (.pinDisk id r hfound hitem)
        (fun _ h => h) rfl rfl
      refine ⟨hstep, rfl, rfl, fun _ _ htracked => ?_⟩
      exact (((hinvp.wf.diskTracker.remove id).2.1 id).mp htracked).2 rfl
    · have hlocked : (s.withItem r { s.items r with pinned := true }).Locked r :=
        ⟨hitem, Bool.eq_false_iff.mpr hlayer⟩
      simp only [spec_bind]
      refine blockIndexes_spec (fun hT => ?_) ?_
      · exact hinvp.blockCount_lt (sc.total hT) hlive
      refine (spec_forEach (fun _ t => Ran sc (Action.InPin p) s g t g ∧
        t = { s.withItem r { s.items r with pinned := true } with memTracker := t.memTracker })
        ?_ _ _ ⟨hpin, rfl⟩).mono ?_
      · rintro i rest t ⟨ht, hteq⟩
        have hstep := ht.step hP (.pinMem ⟨id, i⟩ r
          (by rw [hteq]; exact hfound) (by rw [hteq]; exact hlocked)) (fun _ h => h) rfl rfl
        refine ⟨hstep, ?_⟩
        rw [hteq]
      · rintro _ t ⟨ht, hteq⟩
        rw [spec_pure]
        refine ⟨ht, rfl, by rw [hteq]; rfl, fun _ h => absurd h ?_⟩
        exact hlayer
  · have hpinned : (s.items r).pinned = true := by
      simpa [CacheItem.setPinned] using hsame
    have hitems : ((s.items r).setPinned true).2 = s.items r := by
      unfold CacheItem.setPinned
      rw [← hpinned]
    have hitems' : ({ s.items r with pinned := true } : CacheItem) = s.items r := hitems
    have hsames : { s with items := Function.update s.items r (s.items r) } = s := by
      rw [Function.update_eq_self]
    rw [hitems, hsames]
    refine ⟨.refl trivial, rfl, ?_, fun h => ?_⟩
    · rw [hitems', Function.update_eq_self]
    · rw [hpinned] at h
      cases h

/-- The pinned bit goes. The item owes what it did not owe before. -/
theorem unpinned_ran (hinv : Inv sc ⟨s, g⟩) (hfound : s.find id = some r) (hp : p r) :
    Ran sc (Action.InPin p) s g (s.withItem r { s.items r with pinned := false })
      { g with
        memOwed := {key | key.cacheId = id} ∪ g.memOwed
        diskOwed := insert id g.diskOwed } := by
  have hstart : Ran sc (Action.InPin p) s g s g := .refl trivial
  have hP : Action.InPin p (.pin r) := hp
  have hpin := hstart.step (t := s.withItem r { s.items r with pinned := false }) hP
    (.setPinned r false) (fun _ h => h) rfl rfl
  rwa [show s.idOf rt.toPlatform r = id from hinv.wf.home id r hfound] at hpin

theorem unpin_hasBlock {r' : ItemRef} {i : Nat} {b : BlockItem} :
    (s.withItem r { s.items r with pinned := false }).HasBlock r' i b ↔ s.HasBlock r' i b := by
  rw [State.hasBlock_withItem]
  split
  next heq => rw [heq]; rfl
  next => rfl

/-- The loop of a cache with disks ends at the first block that is on disk. -/
theorem unpinDisk_spec (hinv : Inv sc ⟨s, g⟩) (hfound : s.find id = some r)
    (hpinned : (s.items r).pinned = false) (hfree : ¬ s.DiskBusy rt.toPlatform id)
    {count : Nat} (hcount : count = (s.items r).blockCount rt.flags) (hg : id ∈ g.diskOwed) :
    Spec sc.T (do
      let tracked ← forUntil (fun tracked => tracked) false (List.range (min count 4294967296))
        (unpinDiskBlock rt id r)
      require (tracked = true ∨ count < 4294967296)) (fun _ t =>
        Ran sc Action.InTrack s g t { g with diskOwed := g.diskOwed \ {id} } ∧
        t = { s with diskTracker := t.diskTracker, trace := t.trace, locks := t.locks }) s := by
  have hlive := hinv.wf.indexed_live hfound
  have hlength : (s.items r).blocks.length = count := by
    rw [hinv.wf.length r hlive, hcount]
  have howed : insert id (g.diskOwed \ {id}) = g.diskOwed := Set.insert_sdiff_self_of_mem hg
  -- what is left open closes when the id is tracked or the item has no disk block
  have hsettle : ∀ t, Ran sc Action.InTrack s g t g →
      (∀ i b, t.HasBlock r i b → b.diskBlockItem ≠ none → t.DiskTracked rt.toPlatform id) →
        t.find id = some r → Ran sc Action.InTrack s g t { g with diskOwed := g.diskOwed \ {id} } := by
    intro t ht htracked hfind
    have hinvt := ht.inv hinv
    refine ht.settle hinvt.memEvictable ?_ hinvt.nonEmpty
    have hdisk : t.DiskEvictable rt.toPlatform (insert id (g.diskOwed \ {id})) := by
      rw [howed]
      exact hinvt.diskEvictable
    refine hdisk.drop fun r' i b hf hb hne _ => ?_
    obtain rfl : r' = r := Option.some.inj (hf.symm.trans hfind)
    exact htracked i b hb hne
  rw [spec_bind]
  refine (spec_forUntil (fun rest t => Ran sc Action.InTrack s g t g ∧
    t = { s with locks := t.locks } ∧ (∀ i ∈ rest, i < count) ∧
    ∀ i < min count 4294967296, i ∉ rest → ∀ b, s.HasBlock r i b → b.diskBlockItem = none)
    (fun tracked t => Ran sc Action.InTrack s g t g ∧
      t = { s with diskTracker := t.diskTracker, trace := t.trace, locks := t.locks } ∧
      (tracked = true → t.DiskTracked rt.toPlatform id) ∧
      (tracked = false → ∀ i < min count 4294967296, ∀ b, s.HasBlock r i b →
        b.diskBlockItem = none)) ?_ ?_ _ s ⟨.refl trivial, rfl, ?_, ?_⟩).mono ?_
  · rintro i rest t ⟨ht, hteq, hlt, hnone⟩
    unfold unpinDiskBlock
    simp only [spec_bind]
    refine (lock_spec ht false ⟨id, i⟩).mono ?_
    rintro _ u ⟨hu, hueq⟩
    have hus : u = { s with locks := u.locks } := by rw [hueq, hteq]
    refine getBlock_spec (fun _ => ?_) fun b hb => ?_
    · rw [hus]
      show i < (s.items r).blocks.length
      rw [hlength]
      exact hlt i List.mem_cons_self
    refine (unlock_spec hu false ⟨id, i⟩).mono ?_
    rintro _ v ⟨hv, hveq⟩
    have hvs : v = { s with locks := v.locks } := by rw [hveq, hus]
    have hbs : s.HasBlock r i b := by
      rw [hus] at hb
      exact hb
    refine spec_ite (fun _ => ?_) fun hdisk => ?_
    · simp only [spec_bind, spec_read]
      refine (diskTrack_spec hv (hv.inv hinv) id trivial _ (Or.inl ?_) ?_).mono ?_
      · rw [hvs]
        exact hfree
      · rintro r' hf
        rw [hvs] at hf ⊢
        obtain rfl : r' = r := Option.some.inj (hf.symm.trans hfound)
        exact hpinned
      rintro _ w ⟨hw, hweq, hin⟩
      rw [spec_pure]
      refine ⟨hw, ?_, fun _ => (hin id).mpr (Or.inl rfl), fun h => by cases h⟩
      rw [hweq, hvs]
    · rw [spec_pure]
      refine ⟨hv, hvs, fun j hj => hlt j (List.mem_cons_of_mem _ hj), fun j hj hnot b' hb' => ?_⟩
      by_cases hji : j = i
      · subst hji
        obtain rfl : b' = b := Option.some.inj (hb'.symm.trans hbs)
        simpa using hdisk
      · exact hnone j hj (fun h => (List.mem_cons.mp h).elim hji hnot) b' hb'
  · rintro t ⟨ht, hteq, _, hnone⟩
    refine ⟨ht, by rw [hteq], (fun h => by cases h), fun _ j hj => hnone j hj List.not_mem_nil⟩
  · intro i hi
    have := List.mem_range.mp hi
    omega
  · intro i hi hnot
    exact absurd (List.mem_range.mpr hi) hnot
  rintro tracked t ⟨ht, hteq, htracked, hnone⟩
  have hfind : t.find id = some r := by
    rw [hteq]
    exact hfound
  refine spec_require (fun hT => ?_) fun hdone => ⟨hsettle t ht (fun i b hb hne => ?_) hfind, hteq⟩
  · have := hinv.blockCount_lt (sc.total hT) hlive
    exact Or.inr (by omega)
  · cases tracked with
    | true => exact htracked rfl
    | false =>
        have hb' : s.HasBlock r i b := by
          rw [hteq] at hb
          exact hb
        have hi := (List.getElem?_eq_some_iff.mp hb').1
        have hlt := hdone.resolve_left Bool.false_ne_true
        exact absurd (hnone rfl i (by omega) b hb') hne

/-- The loop of a cache without disks tracks every block that is in memory. -/
theorem unpinMem_spec (hinv : Inv sc ⟨s, { g with memOwed := {key | key.cacheId = id} ∪ g.memOwed }⟩)
    (hfound : s.find id = some r) (hfree : ∀ key, ¬ s.MemBusy rt.toPlatform key) :
    Spec sc.T (do
      let indexes ← blockIndexes ((s.items r).blockCount rt.flags)
      forEach indexes (unpinMemBlock rt id r)) (fun _ t =>
        Ran sc Action.InTrack s { g with memOwed := {key | key.cacheId = id} ∪ g.memOwed } t g ∧
        t = { s with memTracker := t.memTracker, trace := t.trace, locks := t.locks }) s := by
  have hlive := hinv.wf.indexed_live hfound
  have hlength : (s.items r).blocks.length = (s.items r).blockCount rt.flags :=
    hinv.wf.length r hlive
  have hstart : Ran sc Action.InTrack s { g with memOwed := {key | key.cacheId = id} ∪ g.memOwed } s
      { g with memOwed := {key | key.cacheId = id} ∪ g.memOwed } := .refl trivial
  rw [spec_bind]
  refine blockIndexes_spec (fun hT => hinv.blockCount_lt (sc.total hT) hlive) ?_
  refine (spec_forEach (fun rest t => Ran sc Action.InTrack s
      { g with memOwed := {key | key.cacheId = id} ∪ g.memOwed } t
      { g with memOwed := {key | key.cacheId = id} ∪ g.memOwed } ∧
    t = { s with memTracker := t.memTracker, trace := t.trace, locks := t.locks } ∧
    (∀ i ∈ rest, i < (s.items r).blocks.length) ∧
    ∀ i < (s.items r).blocks.length, i ∉ rest → ∀ b, s.HasBlock r i b → b.memBlockItem ≠ none →
      t.MemTracked rt.toPlatform ⟨id, i⟩) ?_ _ s ⟨hstart, rfl, ?_, ?_⟩).mono ?_
  · rintro i rest t ⟨ht, hteq, hlt, htracked⟩
    unfold unpinMemBlock
    simp only [spec_bind]
    refine (lock_spec ht false ⟨id, i⟩).mono ?_
    rintro _ u ⟨hu, hueq⟩
    have hus : u = { s with memTracker := u.memTracker, trace := u.trace, locks := u.locks } := by
      rw [hueq, hteq]
    refine getBlock_spec (fun _ => ?_) fun b hb => ?_
    · rw [hus]
      exact hlt i List.mem_cons_self
    refine (unlock_spec hu false ⟨id, i⟩).mono ?_
    rintro _ v ⟨hv, hveq⟩
    have hvs : v = { s with memTracker := v.memTracker, trace := v.trace, locks := v.locks } := by
      rw [hveq, hus]
    have hvtracked : ∀ key, t.MemTracked rt.toPlatform key → v.MemTracked rt.toPlatform key := by
      intro key h
      rw [hveq, hueq]
      exact h
    have hbs : s.HasBlock r i b := by
      rw [hus] at hb
      exact hb
    have hrest : ∀ j ∈ rest, j < (s.items r).blocks.length := fun j hj =>
      hlt j (List.mem_cons_of_mem _ hj)
    rw [spec_read]
    refine spec_when (fun _ => ?_) fun hmem => ?_
    · refine (memTrack_spec hv (hv.inv hinv) ⟨id, i⟩ trivial _ (Or.inl ?_)).mono ?_
      · exact Runs.not_memBusy hv.runs hinv (fun h => h) (fun _ h => h) (hfree _)
      rintro _ w ⟨hw, hweq, hin⟩
      refine ⟨hw, by rw [hweq, hvs], hrest, fun j hj hnot b' hb' hne => (hin _).mpr ?_⟩
      by_cases hji : j = i
      · exact Or.inl (by rw [hji])
      · exact Or.inr (hvtracked _
          (htracked j hj (fun h => (List.mem_cons.mp h).elim hji hnot) b' hb' hne))
    · refine ⟨hv, hvs, hrest, fun j hj hnot b' hb' hne => ?_⟩
      by_cases hji : j = i
      · subst hji
        obtain rfl : b' = b := Option.some.inj (hb'.symm.trans hbs)
        exact absurd (by simpa using hmem) hne
      · exact hvtracked _ (htracked j hj (fun h => (List.mem_cons.mp h).elim hji hnot) b' hb' hne)
  · intro i hi
    rw [hlength]
    exact List.mem_range.mp hi
  · intro i hi hnot
    rw [hlength] at hi
    exact absurd (List.mem_range.mpr hi) hnot
  rintro _ t ⟨ht, hteq, _, htracked⟩
  have hinvt := ht.inv hinv
  refine ⟨ht.settle (fun id' r' i b hf hb hne hlocked => ?_) hinvt.diskEvictable hinvt.nonEmpty,
    hteq⟩
  rcases hinvt.memEvictable id' r' i b hf hb hne hlocked with h | h | h
  · exact Or.inl h
  · have hid : id' = id := h
    subst hid
    rw [hteq] at hf hb
    obtain rfl : r' = r := Option.some.inj (hf.symm.trans hfound)
    exact Or.inl (htracked i (List.getElem?_eq_some_iff.mp hb).1 List.not_mem_nil b hb hne)
  · exact Or.inr h

theorem unpinCacheItem_spec (hinv : Inv sc ⟨s, g⟩) (hquiet : Quiet s)
    (hfound : s.find id = some r) (hp : p r) :
    Spec sc.T (unpinCacheItem rt id r) (fun st t => Ran sc (Action.InPin p) s g t g ∧
      st.ok = true ∧ t = { s with
        items := Function.update s.items r { s.items r with pinned := false }
        memTracker := t.memTracker, diskTracker := t.diskTracker, trace := t.trace
        locks := t.locks }) s := by
  have hpin := unpinned_ran hinv hfound hp
  have hinvp := hpin.inv hinv
  have hitem : ((s.withItem r { s.items r with pinned := false }).items r).pinned = false := by
    rw [State.withItem_items, if_pos rfl]
  unfold unpinCacheItem setPinned updateItem
  simp only [spec_bind, spec_read, spec_modify, spec_pure]
  refine spec_ite (fun _ => ?_) fun hsame => ?_
  · simp only [spec_bind, spec_read]
    refine spec_ite (fun hlayer => ?_) fun hlayer => ?_
    · -- with disks the memory blocks have been tracked all the time
      have hlayer' : s.hasDiskLayer = true := hlayer
      have hrun : Ran sc (Action.InPin p) s g (s.withItem r { s.items r with pinned := false })
          { g with diskOwed := insert id g.diskOwed } := by
        refine hpin.settle (fun id' r' i b hf hb hne _ => ?_) hinvp.diskEvictable hinvp.nonEmpty
        refine hinv.memEvictable id' r' i b hf (unpin_hasBlock.mp hb) hne fun hl => ?_
        exact Bool.false_ne_true (hl.2.symm.trans hlayer')
      have hdisk := unpinDisk_spec (hrun.inv hinv) hfound hitem (hquiet.not_diskBusy hinv.wf id)
        rfl (Set.mem_insert _ _)
      rw [spec_bind] at hdisk ⊢
      refine Spec.mono hdisk fun tracked t ht => ?_
      rw [spec_bind]
      refine Spec.mono ht ?_
      rintro _ u ⟨hu, hueq⟩
      have hinvu := hu.inv (hrun.inv hinv)
      rw [spec_pure]
      refine ⟨(hrun.trans (hu.mono fun _ => Action.InTrack.inPin)).settle hinvu.memEvictable
        (hinvu.diskEvictable.mono ?_) hinvu.nonEmpty, rfl, ?_⟩
      · rintro id' ⟨hin, hne⟩
        exact hin.resolve_left hne
      · rw [hueq]
        rfl
    · -- without disks there are no disk blocks
      have hlayer' : ¬ s.hasDiskLayer = true := hlayer
      have hrun : Ran sc (Action.InPin p) s g (s.withItem r { s.items r with pinned := false })
          { g with memOwed := {key | key.cacheId = id} ∪ g.memOwed } := by
        refine hpin.settle hinvp.memEvictable (fun id' r' i b hf hb hne _ => ?_) hinvp.nonEmpty
        obtain ⟨id₀, hid₀⟩ := Option.ne_none_iff_exists'.mp hne
        exact absurd (hinv.wf.hasDiskLayer (hinv.wf.disk_live (hinv.wf.indexed_live hf)
          (unpin_hasBlock.mp hb) hid₀)) hlayer'
      have hmem := unpinMem_spec (hrun.inv hinv) hfound
        fun key => hquiet.not_memBusy hinv.wf key
      rw [spec_bind] at hmem
      simp only [spec_bind]
      refine Spec.mono hmem fun indexes t ht => ?_
      refine Spec.mono ht ?_
      rintro _ u ⟨hu, hueq⟩
      rw [spec_pure]
      refine ⟨hrun.trans (hu.mono fun _ => Action.InTrack.inPin), rfl, ?_⟩
      rw [hueq]
      rfl
  · have hpinned : (s.items r).pinned = false := by
      simpa [CacheItem.setPinned] using hsame
    have hitems : ((s.items r).setPinned false).2 = s.items r := by
      unfold CacheItem.setPinned
      rw [← hpinned]
    have hsames : { s with items := Function.update s.items r (s.items r) } = s := by
      rw [Function.update_eq_self]
    rw [hitems, hsames]
    have hitems' : ({ s.items r with pinned := false } : CacheItem) = s.items r := hitems
    refine ⟨.refl trivial, rfl, ?_⟩
    rw [hitems', Function.update_eq_self]

/-! ## Writing -/

/-- The state in which `set` starts to write its item: what was found has been removed. -/
def Unlinked (pf : Platform) (id : CacheId) (s : State) (u : State) : Prop :=
  match s.find id with
  | none => u = { s with concurrentWrites := s.concurrentWrites + 1 }
  | some r => removeCacheItem pf id r { s with
      concurrentWrites := s.concurrentWrites + 1, locals := .item r :: s.locals } = some ((), u)

/-- `set` gives up before it writes. -/
def Refuses (rt : Runtime) (id : CacheId) (buf : IOBuf) (options : Option WriteOptions)
    (s : State) : Prop :=
  buf = [] ∨ rt.flags.maxConcurrentWrites < s.concurrentWrites + 1 ∨
    ∃ r, s.find id = some r ∧ options.all (·.overwrite) = false

/-- The outcome of a set. -/
structure SetDone (sc : Scenario rt.toPlatform) (cacheKey : CacheKey) (s : State) (g : Ghost)
    (st : Status) (t : State) : Prop where
  ran : Ran sc (Action.InSet (rt.cachekey2id cacheKey) s.itemCount) s g t
    (if st.ok = true then g.published (rt.cachekey2id cacheKey) t else g)
  done : st.ok = true → t.find (rt.cachekey2id cacheKey) = some s.itemCount ∧
    (t.items s.itemCount).cacheKey = cacheKey
  failed : st.ok = false → ∀ r, t.find (rt.cachekey2id cacheKey) = some r →
    s.find (rt.cachekey2id cacheKey) = some r

theorem SetDone.of_wrote {u : State} {st : Status}
    (hu : Ran sc (Action.InSet (rt.cachekey2id cacheKey) s.itemCount) s g u g)
    (hcount : u.itemCount = s.itemCount)
    (h : WroteItem sc ⟨u.itemCount, rt.cachekey2id cacheKey⟩ u.itemCount u g st t)
    (hkey : st.ok = true → (t.items u.itemCount).cacheKey = cacheKey) :
    SetDone sc cacheKey s g st t := by
  rw [hcount] at h hkey
  cases hok : st.ok with
  | true =>
      obtain ⟨ht, hfind⟩ := h.done hok
      refine ⟨?_, fun _ => ⟨hfind, hkey hok⟩, fun hfail => ?_⟩
      · rw [hok, if_pos rfl]
        exact hu.trans ht
      · rw [hok] at hfail
        cases hfail
  | false =>
      obtain ⟨ht, hhidden⟩ := h.failed hok
      refine ⟨?_, fun h => ?_, fun _ r hfind => ?_⟩
      · rw [hok, if_neg Bool.false_ne_true]
        exact hu.trans ht
      · rw [hok] at h
        cases h
      · rw [(hhidden _ rfl).1] at hfind
        cases hfind

theorem withItem_same (s : State) (r : ItemRef) : s.withItem r { s.items r with
    released := (s.items r).released } = s := by
  have hitem : ({ s.items r with released := (s.items r).released } : CacheItem) = s.items r := rfl
  unfold State.withItem
  rw [hitem, Function.update_eq_self]

theorem setUnlinked_spec {T : Prop} {buf : IOBuf} {options : Option WriteOptions}
    (hinv : Inv sc ⟨s, g⟩) (hbuf : 0 < buf.length)
    (hval : sc.D → sc.val s.itemCount = buf ∧ blockCountOf rt.flags buf.length < 4294967296)
    (hT : T → sc.T) (hwrite : T →
      (∀ r, s.find (rt.cachekey2id cacheKey) = some r → options.all (·.overwrite) = true) →
        Decides rt options s ∧ ∀ u, Unlinked rt.toPlatform (rt.cachekey2id cacheKey) s u →
          ¬ AllocFails rt cacheKey buf options u) :
    Spec T (do
      let st ← match s.find (rt.cachekey2id cacheKey) with
        | none => pure .OK
        | some r => do
            hold (.item r)
            if options.all (·.overwrite) then do
              removeCacheItem rt.toPlatform (rt.cachekey2id cacheKey) r
              pure .OK
            else pure ⟨EEXIST, "the cache object already exists"⟩
      if st.ok then writeCacheItem rt (rt.cachekey2id cacheKey) cacheKey buf options else pure st)
      (SetDone sc cacheKey s g) { s with concurrentWrites := s.concurrentWrites + 1 } := by
  have hstart : Ran sc (Action.InSet (rt.cachekey2id cacheKey) s.itemCount) s g
      { s with concurrentWrites := s.concurrentWrites + 1 } g :=
    idle_ran (.refl trivial) (Nat.le_refl _)
  have hinvs := hstart.inv hinv
  have hok : Status.OK.ok = true := rfl
  cases hfind : s.find (rt.cachekey2id cacheKey) with
  | none =>
      have hunlinked : Unlinked rt.toPlatform (rt.cachekey2id cacheKey) s
          { s with concurrentWrites := s.concurrentWrites + 1 } := by
        unfold Unlinked
        rw [hfind]
      rw [spec_bind, spec_pure]
      dsimp only
      rw [if_pos hok]
      have hwrite' := fun ht => hwrite ht fun r hr => by rw [hfind] at hr; cases hr
      refine (writeCacheItem_spec hinvs rfl hfind hbuf hval fun ht =>
        ⟨hT ht, fun u hu => (hwrite' ht).1 u (hstart.static.trans hu),
          (hwrite' ht).2 _ hunlinked⟩).mono ?_
      rintro st t ⟨hwrote, hkey⟩
      exact .of_wrote hstart rfl hwrote hkey
  | some r =>
      rw [spec_bind]
      have halive : State.Alive { s with concurrentWrites := s.concurrentWrites + 1 } (.item r) :=
        hinv.wf.indexed_live hfind
      refine (hold_spec hstart halive).mono ?_
      rintro _ u ⟨hu, rfl⟩
      refine spec_ite (fun hoverwrite => ?_) fun _ => ?_
      · rw [spec_bind]
        have hremove := removeCacheItem_spec (P := Action.InRemove (rt.cachekey2id cacheKey))
          (hu.inv hinv) trivial hfind List.mem_cons_self trivial trivial (Or.inl rfl)
          (s.items r).released
        rw [withItem_same { s with
          concurrentWrites := s.concurrentWrites + 1, locals := .item r :: s.locals } r] at hremove
        refine (hremove.weaken hT).imp ?_
        rintro _ v heq ⟨hv, hnone, _⟩
        have hunlinked : Unlinked rt.toPlatform (rt.cachekey2id cacheKey) s v := by
          unfold Unlinked
          rw [hfind]
          exact heq
        have hcount : v.itemCount = s.itemCount := Runs.itemCount hv.runs fun h => h
        have hranv : Ran sc (Action.InSet (rt.cachekey2id cacheKey) s.itemCount) s g v g :=
          hu.trans (hv.mono fun a ha => ?_)
        · rw [spec_bind, spec_pure]
          dsimp only
          rw [if_pos hok]
          have hwrite' := fun ht => hwrite ht fun _ _ => hoverwrite
          refine (writeCacheItem_spec (hranv.inv hinv) rfl hnone hbuf (by rwa [hcount]) fun ht =>
            ⟨hT ht, fun w hw => (hwrite' ht).1 w (hranv.static.trans hw),
              (hwrite' ht).2 _ hunlinked⟩).mono ?_
          rintro st t ⟨hwrote, hkey⟩
          exact .of_wrote hranv hcount hwrote hkey
        · cases a with
          | other | track _ | untrack _ | change _ => trivial
          | remove id => exact ha
          | _ => exact False.elim ha
      · rw [spec_bind, spec_pure]
        exact ⟨hu, (fun h => by cases h), fun _ _ hr => hr⟩

theorem set_spec {T : Prop} {buf : IOBuf} {options : Option WriteOptions} (hinv : Inv sc ⟨s, g⟩)
    (hval : buf ≠ [] → sc.D →
      sc.val s.itemCount = buf ∧ blockCountOf rt.flags buf.length < 4294967296)
    (hT : T → sc.T) (hwrite : T → ¬ Refuses rt (rt.cachekey2id cacheKey) buf options s →
      Decides rt options s ∧ ∀ u, Unlinked rt.toPlatform (rt.cachekey2id cacheKey) s u →
        ¬ AllocFails rt cacheKey buf options u) :
    Spec T (set rt cacheKey buf options) (fun st t =>
      SetDone sc cacheKey s g st t ∧ Returns s t) s := by
  have hrefused : ∀ {st : Status}, st.ok = false →
      SetDone sc cacheKey s g st s ∧ Returns s s := by
    intro st hst
    refine ⟨⟨?_, fun h => ?_, fun _ _ hr => hr⟩, .refl s⟩
    · rw [hst]
      exact .refl trivial
    · rw [hst] at h
      cases h
  unfold set
  rw [spec_bind, spec_read]
  refine spec_ite (fun _ => hrefused rfl) fun hbuf => ?_
  refine spec_ite (fun _ => hrefused rfl) fun hbusy => ?_
  have hne : buf ≠ [] := by simpa using hbuf
  simp only [spec_bind, spec_modify]
  refine scope_rule (setUnlinked_spec hinv (List.length_pos_iff.mpr hne) (hval hne) hT
    fun ht hoverwrite => hwrite ht ?_) ?_
  · rintro (hempty | hmany | ⟨r, hfind, hfalse⟩)
    · exact hne hempty
    · exact hbusy hmany
    · rw [hoverwrite r hfind] at hfalse
      cases hfalse
  · rintro st u hu
    refine (leave_spec hinv hu.ran).mono ?_
    rintro _ v ⟨hv, hlocals, hcollected, heffect⟩
    have hlast : Ran sc (Action.InSet (rt.cachekey2id cacheKey) s.itemCount) s g
        { v with concurrentWrites := v.concurrentWrites - 1 } _ :=
      idle_ran hv (Nat.le_refl _)
    have hfind : ∀ id, v.find id = u.find id := heffect.find
    have htrace : v.trace = u.trace := by rw [heffect.eq]
    have hitems : v.items = u.items := by rw [heffect.eq]
    rw [spec_pure]
    refine ⟨⟨?_, fun hok => ?_, fun hfail r hr => ?_⟩, fun _ => ?_, hlocals, hlast.memHandles,
      hlast.diskHandles⟩
    · rwa [show g.published (rt.cachekey2id cacheKey) { v with
        concurrentWrites := v.concurrentWrites - 1 } = g.published (rt.cachekey2id cacheKey) u by
          unfold Ghost.published State.MemLost State.DiskLost
          rw [htrace]]
    · obtain ⟨hnew, hkey⟩ := hu.done hok
      exact ⟨(hfind _).trans hnew, by rw [hitems]; exact hkey⟩
    · exact hu.failed hfail r ((hfind _).symm.trans hr)
    · exact hcollected.of_eq (fun _ => rfl) rfl rfl rfl rfl rfl

theorem scope_cases {α : Type} {pf : Platform} {body : Prog State α} {a : α}
    (h : scope pf body s = some (a, t)) :
    ∃ u, body s = some (a, u) ∧ collect pf { u with locals := s.locals } = some ((), t) := by
  unfold scope at h
  obtain ⟨_, _, hread, h⟩ := bind_eq_some.mp h
  cases hread
  obtain ⟨a', u, hbody, h⟩ := bind_eq_some.mp h
  obtain ⟨_, _, hleave, h⟩ := bind_eq_some.mp h
  cases hleave
  obtain ⟨_, _, hcollect, h⟩ := bind_eq_some.mp h
  cases h
  exact ⟨u, hbody, hcollect⟩

/-- A set that returns has been refused, or it writes its item after it has unlinked the one it
has found. -/
theorem set_cases {buf : IOBuf} {options : Option WriteOptions} {st : Status}
    (hset : StarCacheImpl.set rt cacheKey buf options s = some (st, t)) :
    (Refuses rt (rt.cachekey2id cacheKey) buf options s ∧ st.ok = false ∧
        (buf ≠ [] → s.concurrentWrites < rt.flags.maxConcurrentWrites → st.errorCode = EEXIST)) ∨
      ∃ u v w, Unlinked rt.toPlatform (rt.cachekey2id cacheKey) s u ∧
        writeCacheItem rt (rt.cachekey2id cacheKey) cacheKey buf options u = some (st, v) ∧
        collect rt.toPlatform { v with locals := s.locals } = some ((), w) ∧
        t = { w with concurrentWrites := w.concurrentWrites - 1 } := by
  unfold StarCacheImpl.set at hset
  obtain ⟨_, _, hread, hset⟩ := bind_eq_some.mp hset
  cases hread
  by_cases hempty : buf.isEmpty = true
  · rw [if_pos hempty] at hset
    cases hset
    have hnil : buf = [] := by simpa using hempty
    exact Or.inl ⟨Or.inl hnil, rfl, fun hne => absurd hnil hne⟩
  by_cases hbusy : rt.flags.maxConcurrentWrites < s.concurrentWrites + 1
  · rw [if_neg hempty, if_pos hbusy] at hset
    cases hset
    exact Or.inl ⟨Or.inr (Or.inl hbusy), rfl, fun _ hlt => by omega⟩
  rw [if_neg hempty, if_neg hbusy] at hset
  obtain ⟨_, _, hmodify, hset⟩ := bind_eq_some.mp hset
  cases hmodify
  obtain ⟨st', w, hscope, hset⟩ := bind_eq_some.mp hset
  obtain ⟨_, _, hmodify, hset⟩ := bind_eq_some.mp hset
  cases hmodify
  cases hset
  obtain ⟨v, hbody, hcollect⟩ := scope_cases hscope
  unfold Unlinked
  cases hfind : s.find (rt.cachekey2id cacheKey) with
  | none =>
      rw [hfind] at hbody
      exact Or.inr ⟨_, v, w, rfl, hbody, hcollect, rfl⟩
  | some r =>
      rw [hfind] at hbody
      obtain ⟨_, _, hhold, hbody⟩ := bind_eq_some.mp hbody
      cases hhold
      by_cases hoverwrite : options.all (·.overwrite) = true
      · rw [if_pos hoverwrite] at hbody
        obtain ⟨_, u, hremove, hbody⟩ := bind_eq_some.mp hbody
        exact Or.inr ⟨u, v, w, hremove, hbody, hcollect, rfl⟩
      · rw [if_neg hoverwrite] at hbody
        cases hbody
        exact Or.inl ⟨Or.inr (Or.inr ⟨r, hfind, by simpa using hoverwrite⟩), rfl, fun _ _ => rfl⟩

/-! ## The calls that start with a lookup -/

/-- A read of a run: nothing is assumed but that it returns. -/
theorem lookupRead_spec (hinv : Inv sc ⟨s, g⟩) (options : Option ReadOptions) (offset : Int)
    (size : ItemRef → Nat) (o : Nat)
    (hoffset : sc.D → ∀ r ∈ s.liveItems, offset = o ∧ o + size r < 18446744073709551616 ∨
      ∀ i k, ¬ sc.whole r i k)
    (haddr : sc.D → ∀ r ∈ s.liveItems, Addressable rt.flags (sc.val r).length) :
    Spec False (match lookupItem rt s cacheKey with
      | none => pure (notFound, [])
      | some r => scope rt.toPlatform do
          hold (.item r)
          readCacheItem rt (rt.cachekey2id cacheKey) r offset (size r) options) (fun res t =>
      Ran sc Action.InRead s g t g ∧ Returns s t ∧ (sc.D → res.1.ok = true →
        ∃ r, lookupItem rt s cacheKey = some r ∧
          (offset = o ∧ o + size r < 18446744073709551616 →
            res.2 = ((sc.val r).drop o).take (size r)))) s := by
  cases hlookup : lookupItem rt s cacheKey with
  | none => exact ⟨.refl trivial, .refl s, fun _ h => by cases h⟩
  | some r =>
      have hfound := (lookupItem_iff.mp hlookup).1
      have hlive := hinv.wf.indexed_live hfound
      refine (readFound_spec (T := False) (H := False) hinv hfound options
        (fun hD => (hoffset hD r hlive).imp_right fun h => ⟨not_false, h⟩)
        (fun hD => haddr hD r hlive) False.elim id False.elim False.elim False.elim).mono ?_
      rintro res t ⟨ht, hreturns, hbytes, _⟩
      exact ⟨ht, hreturns, fun hD hok => ⟨r, rfl, fun hin => hbytes hD hin hok⟩⟩

theorem pin_spec (hinv : Inv sc ⟨s, g⟩) :
    Spec sc.T (pin rt cacheKey) (fun st t =>
      Ran sc (Action.InPin fun r => lookupItem rt s cacheKey = some r ∧
        (s.items r).pinned = false) s g t g ∧ Returns s t ∧
      (st.ok = true → ∃ r, lookupItem rt s cacheKey = some r ∧
        Pinned rt.toPlatform s (rt.cachekey2id cacheKey) r t)) s := by
  unfold pin
  rw [spec_bind, spec_read]
  cases hlookup : lookupItem rt s cacheKey with
  | none => exact ⟨.refl trivial, .refl s, fun h => by cases h⟩
  | some r =>
      refine (pinCacheItem_spec hinv (lookupItem_iff.mp hlookup).1
        (p := fun r' => some r = some r' ∧ (s.items r').pinned = false) fun h => ⟨rfl, h⟩).mono ?_
      rintro st t ⟨ht, hok, hpinned⟩
      refine ⟨ht, ⟨fun hcollected => hcollected.repin hpinned.eq, ?_, ht.memHandles,
        ht.diskHandles⟩, fun _ => ⟨r, rfl, hpinned⟩⟩
      rw [hpinned.eq]

theorem unpin_spec (hinv : Inv sc ⟨s, g⟩) (hquiet : Quiet s) :
    Spec sc.T (unpin rt cacheKey) (fun st t =>
      Ran sc (Action.InPin fun r => lookupItem rt s cacheKey = some r) s g t g ∧ Returns s t ∧
      (st.ok = true → ∃ r, lookupItem rt s cacheKey = some r ∧ t = { s with
          items := Function.update s.items r { s.items r with pinned := false }
          memTracker := t.memTracker, diskTracker := t.diskTracker, trace := t.trace
          locks := t.locks })) s := by
  unfold unpin
  rw [spec_bind, spec_read]
  cases hlookup : lookupItem rt s cacheKey with
  | none => exact ⟨.refl trivial, .refl s, fun h => by cases h⟩
  | some r =>
      refine (unpinCacheItem_spec hinv hquiet (lookupItem_iff.mp hlookup).1
        (p := fun r' => some r = some r') rfl).mono ?_
      rintro st t ⟨ht, hok, heq⟩
      refine ⟨ht, ⟨fun hcollected => hcollected.repin heq, ?_, ht.memHandles, ht.diskHandles⟩,
        fun _ => ⟨r, rfl, heq⟩⟩
      rw [heq]

end StarCacheImpl

end StarCache
