import StarCache.Impl.Write
import StarCache.Refinement.MemEviction
import StarCache.Transition.Retention

/-!
# Writes

A set builds its item out of sight: neither the item nor its id is in the index
while the blocks are written, so that what the allocations evict meanwhile cannot
touch it. What has been put into the eviction policies can.
-/

namespace StarCache

open Prog MachineInt

namespace Action

/-- What the allocation of an item may do. -/
def InCreate : Action → Prop
  | .create => True
  | a => a.InEvict none

/-- What the allocation of an item may do while `own` is out of sight. -/
def Creates (own : Option Own) : Action → Prop
  | .create => True
  | a => a.InEvict own

/-- What the writing of one block of an item may do. -/
def InWrite (own : Own) : Action → Prop
  | .other | .touchDisk | .track _ | .change _ | .fill _ => True
  | .untrack id => id ≠ own.id
  | _ => False

/-- What a set of this id may do, items from `n` on being its own. -/
def InSet (id : CacheId) (n : ItemRef) : Action → Prop
  | .other | .touchDisk | .track _ | .untrack _ | .change _ | .fill _ | .create => True
  | .pin r => n ≤ r
  | .remove id' | .publish id' => id' = id
  | .touchMem => False

theorem InCreate.inSet {id : CacheId} {n : ItemRef} {a : Action} (h : a.InCreate) :
    a.InSet id n := by
  cases a with
  | other | touchDisk | track _ | untrack _ | change _ | fill _ | create => trivial
  | _ => exact False.elim h

theorem InWrite.inSet {own : Own} {id : CacheId} {n : ItemRef} {a : Action} (h : a.InWrite own) :
    a.InSet id n := by
  cases a with
  | other | touchDisk | track _ | untrack _ | change _ | fill _ => trivial
  | _ => exact False.elim h

theorem InEvict.creates {own : Option Own} {a : Action} (h : a.InEvict own) : a.Creates own := by
  cases a with
  | create => trivial
  | _ => exact h

theorem Creates.inCreate {a : Action} (h : a.Creates none) : a.InCreate := by
  cases a with
  | create => trivial
  | _ => exact h

theorem InDisk.inWrite {own : Own} {a : Action} (h : a.InDisk (some own)) : a.InWrite own := by
  cases a with
  | untrack id => exact h own rfl
  | other | track _ | change _ => trivial
  | _ => exact False.elim h

theorem InEvict.inWrite {own : Own} {a : Action} (h : a.InEvict (some own)) : a.InWrite own := by
  cases a with
  | touchDisk => trivial
  | _ => exact InDisk.inWrite h

end Action

/-- An item with a block that holds something. -/
def State.Filled (s : State) (r : ItemRef) : Prop := ∃ i b, s.HasBlock r i b ∧ b.isEmpty = false

/-- What is owed when a new item becomes visible: what the call that wrote it has lost. -/
def Ghost.published (g : Ghost) (id : CacheId) (s : State) : Ghost where
  memOwed := {key | key.cacheId = id ∧ key ∈ s.MemLost} ∪ g.memOwed
  diskOwed := {id' | id' = id ∧ id' ∈ s.DiskLost} ∪ g.diskOwed
  hollow := g.hollow

namespace StarCacheImpl

variable {rt : Runtime} {sc : Scenario rt.toPlatform} {s t : State} {g : Ghost} {r : ItemRef}

/-! ## The new item -/

/-- An item that has just been created. -/
structure Created (rt : Runtime) (t : State) (cacheKey : CacheKey) (size expireTime : Nat)
    (r : ItemRef) : Prop where
  live : r ∈ t.liveItems
  item : t.items r = .new rt.flags cacheKey size expireTime
  unindexed : ∀ id, t.find id ≠ some r

theorem newCacheItem_spec {T : Prop} {P : Action → Prop} {s₀ : State} {g₀ : Ghost}
    (hran : Ran sc P s₀ g₀ s g) (hinv : Inv sc ⟨s, g⟩) (hP : P .create) (cacheKey : CacheKey)
    (size expireTime : Nat) (urgent : Bool)
    (hvalue : sc.D → size = (sc.val s.itemCount).length ∧ 0 < size ∧
      blockCountOf rt.flags size < 4294967296) :
    Spec T (MemCache.newCacheItem rt.toPlatform cacheKey size expireTime urgent) (fun found t =>
      Ran sc P s₀ g₀ t g ∧ match found with
        | none => t.itemCount = s.itemCount
        | some r => r = s.itemCount ∧ Created rt t cacheKey size expireTime r) s := by
  unfold MemCache.newCacheItem
  rw [spec_modifyGet]
  dsimp only
  split
  next hgrant =>
    refine ⟨hran.step hP (.newItem cacheKey size expireTime _ (fun total h => ?_) hvalue
      (MemSpaceManager.incMem_quota _ _)) (fun _ h => h) rfl rfl, rfl, List.mem_cons_self,
      Function.update_self .., fun id hfind => ?_⟩
    · rw [Nat.add_comm]
      exact MemSpaceManager.incMem_granted h hgrant
    · exact absurd (hinv.wf.indexed_lt hfind) (Nat.lt_irrefl _)
  next hdeny =>
    refine ⟨hran.step hran.other (.idle s.clock s.locks s.concurrentWrites _ s.diskSpace
      (Nat.le_refl _) (fun total h => ?_) (fun _ h => h) (.refl _)
      (MemSpaceManager.incMem_quota _ _)) (fun _ h => h) rfl rfl, rfl⟩
    exact MemSpaceManager.incMem_denied h (by simpa using hdeny)

/-- `_alloc_cache_item`, while `own` is out of sight. -/
theorem allocCacheItem_creates {own : Option Own} (hinv : Inv sc ⟨s, g⟩)
    (hprivate : s.Private own) (cacheKey : CacheKey) (size expireTime : Nat)
    (hvalue : sc.D → size = (sc.val s.itemCount).length ∧ 0 < size ∧
      blockCountOf rt.flags size < 4294967296) :
    Spec sc.T (allocCacheItem rt cacheKey size expireTime) (fun found t =>
      Ran sc (Action.Creates own) s g t g ∧
      ∀ r, found = some r → r = s.itemCount ∧ Created rt t cacheKey size expireTime r) s := by
  unfold allocCacheItem
  apply spec_retry (fun t => Ran sc (Action.Creates own) s g t g ∧ t.itemCount = s.itemCount)
  · rintro i t ⟨ht, hcount⟩
    refine (newCacheItem_spec ht (ht.inv hinv) trivial cacheKey size expireTime _ ?_).mono ?_
    · rwa [hcount]
    rintro found u ⟨hu, hfound⟩
    cases found with
    | none => exact ⟨hu, hfound.trans hcount⟩
    | some r =>
        refine ⟨hu, fun r' h => ?_⟩
        cases h
        exact ⟨hfound.1.trans hcount, hfound.2⟩
  · rintro t ⟨ht, hcount⟩
    have hhidden := hprivate.moves ht.runs fun _ h => h
    refine (evictMemBlock_spec (ht.inv hinv) hhidden size).mono ?_
    rintro _ u hu
    exact ⟨ht.trans (hu.mono fun _ => Action.InEvict.creates),
      (Runs.itemCount hu.runs fun h => h).trans hcount⟩
  · rintro t ⟨ht, _⟩
    exact ⟨ht, fun _ h => by cases h⟩
  · exact ⟨.refl trivial, rfl⟩

/-- `_alloc_cache_item`. -/
theorem allocCacheItem_spec (hinv : Inv sc ⟨s, g⟩) (cacheKey : CacheKey) (size expireTime : Nat)
    (hvalue : sc.D → size = (sc.val s.itemCount).length ∧ 0 < size ∧
      blockCountOf rt.flags size < 4294967296) :
    Spec sc.T (allocCacheItem rt cacheKey size expireTime) (fun found t =>
      Ran sc Action.InCreate s g t g ∧
      ∀ r, found = some r → r = s.itemCount ∧ Created rt t cacheKey size expireTime r) s := by
  have hprivate : s.Private none := fun _ h => by cases h
  refine (allocCacheItem_creates hinv hprivate cacheKey size expireTime hvalue).mono ?_
  rintro found t ⟨ht, hfound⟩
  exact ⟨ht.mono fun _ => Action.Creates.inCreate, hfound⟩

/-! ## The state of a write -/

/-- The item `own` is being written: what its blocks hold has been put into the eviction
policies, where it has to be. -/
structure Writing (pf : Platform) (own : Own) (pinned : Bool) (s : State) : Prop where
  hidden : s.Private (some own)
  held : .item own.item ∈ s.locals
  home : s.idOf pf own.item = own.id
  active : (s.items own.item).released = false
  bit : (s.items own.item).pinned = pinned
  mem : ∀ i b, s.HasBlock own.item i b → b.memBlockItem ≠ none → ¬ s.Locked own.item →
    s.MemKept pf ⟨own.id, i⟩
  disk : ∀ i b, s.HasBlock own.item i b → b.diskBlockItem ≠ none → pinned = false →
    s.DiskKept pf own.id

/-- What the rest of the cache does leaves the item as it is. -/
theorem Writing.ran {own : Own} {pinned : Bool} (h : Writing rt.toPlatform own pinned s)
    (hinv : Inv sc ⟨s, g⟩) {g' : Ghost} (hran : Ran sc (Action.InEvict (some own)) s g t g') :
    Writing rt.toPlatform own pinned t ∧ t.items own.item = s.items own.item := by
  have hlt := hinv.wf.item_lt _ (hinv.wf.local_alive h.held)
  have hown : some own = some own := rfl
  obtain ⟨hitem, hunindexed⟩ := Runs.items hran.runs hlt (h.hidden own hown).2 (fun _ h => h)
    (fun hc => hc own rfl rfl) (fun h => h) (fun h => h)
  dsimp only at hitem hunindexed
  have hblock : ∀ i b, t.HasBlock own.item i b → s.HasBlock own.item i b := by
    intro i b hb
    unfold State.HasBlock at hb ⊢
    rwa [← hitem]
  have hlocked : t.Locked own.item ↔ s.Locked own.item := by
    unfold State.Locked
    rw [hitem, hran.static.hasDiskLayer]
  refine ⟨⟨h.hidden.moves hran.runs fun _ h => h, hran.locals _ h.held, ?_, ?_, ?_, ?_, ?_⟩, hitem⟩
  · exact (hran.static.idOf hlt).trans h.home
  · rw [hitem]
    exact h.active
  · rw [hitem]
    exact h.bit
  · intro i b hb hmem hfree
    exact Runs.memKept hran.runs hinv (fun hc => hc own rfl rfl) (fun _ h => h)
      (h.mem i b (hblock i b hb) hmem fun hl => hfree (hlocked.mpr hl))
  · intro i b hb hdisk hpinned
    exact Runs.diskKept hran.runs hinv (fun hc => hc own rfl rfl) (fun _ h => h)
      (h.disk i b (hblock i b hb) hdisk hpinned)

/-- A block of the item is filled in. -/
theorem Writing.update {own : Own} {pinned : Bool} (h : Writing rt.toPlatform own pinned s)
    (hinv : Inv sc ⟨s, g⟩) {g' : Ghost} (hran : Ran sc (Action.InWrite own) s g t g') {i : Nat}
    {f : BlockItem → BlockItem} (hitem : t.items own.item = (s.items own.item).updateBlock i f)
    (hmem : (∀ b, (f b).memBlockItem ≠ none → b.memBlockItem ≠ none) ∨
      (¬ t.Locked own.item → t.MemKept rt.toPlatform ⟨own.id, i⟩))
    (hdisk : (∀ b, (f b).diskBlockItem ≠ none → b.diskBlockItem ≠ none) ∨
      (pinned = false → t.DiskKept rt.toPlatform own.id)) :
    Writing rt.toPlatform own pinned t := by
  have hlt := hinv.wf.item_lt _ (hinv.wf.local_alive h.held)
  have huntrack : ¬ Action.InWrite own (.untrack own.id) := fun hne => hne rfl
  have hpin : ∀ r, ¬ Action.InWrite own (.pin r) := fun _ h => h
  have hlocked : t.Locked own.item ↔ s.Locked own.item := by
    unfold State.Locked
    rw [hitem, hran.static.hasDiskLayer]
    rfl
  have hblock : ∀ j b, t.HasBlock own.item j b →
      ∃ b₀, s.HasBlock own.item j b₀ ∧ b = if i = j then f b₀ else b₀ := by
    intro j b hb
    have hb' : (s.withItem own.item ((s.items own.item).updateBlock i f)).HasBlock own.item j b := by
      rw [State.hasBlock_withItem, if_pos rfl, ← hitem]
      exact hb
    obtain ⟨b₀, hb₀, heq⟩ := State.hasBlock_updateBlock.mp hb'
    exact ⟨b₀, hb₀, by simpa using heq⟩
  have hkeptMem : ∀ j b, s.HasBlock own.item j b → b.memBlockItem ≠ none → ¬ t.Locked own.item →
      t.MemKept rt.toPlatform ⟨own.id, j⟩ := fun j b hb hne hfree =>
    Runs.memKept hran.runs hinv huntrack hpin (h.mem j b hb hne fun hl => hfree (hlocked.mpr hl))
  have hkeptDisk : ∀ j b, s.HasBlock own.item j b → b.diskBlockItem ≠ none → pinned = false →
      t.DiskKept rt.toPlatform own.id := fun j b hb hne hpinned =>
    Runs.diskKept hran.runs hinv huntrack hpin (h.disk j b hb hne hpinned)
  refine ⟨h.hidden.moves hran.runs fun _ h => h, hran.locals _ h.held, ?_, ?_, ?_, ?_, ?_⟩
  · exact (hran.static.idOf hlt).trans h.home
  · rw [hitem]
    exact h.active
  · rw [hitem]
    exact h.bit
  · intro j b hb hne hfree
    obtain ⟨b₀, hb₀, rfl⟩ := hblock j b hb
    split at hne
    next heq =>
      subst heq
      rcases hmem with hsame | hkept
      · exact hkeptMem i b₀ hb₀ (hsame b₀ hne) hfree
      · exact hkept hfree
    next => exact hkeptMem j b₀ hb₀ hne hfree
  · intro j b hb hne hpinned
    obtain ⟨b₀, hb₀, rfl⟩ := hblock j b hb
    split at hne
    next heq =>
      subst heq
      rcases hdisk with hsame | hkept
      · exact hkeptDisk i b₀ hb₀ (hsame b₀ hne) hpinned
      · exact hkept hpinned
    next => exact hkeptDisk j b₀ hb₀ hne hpinned

/-- The outcome of the writing of block `i`: it is filled, or nothing has come of it. -/
structure WroteBlock (sc : Scenario rt.toPlatform) (own : Own) (pinned : Bool) (i : Nat) (s : State)
    (g : Ghost) (st : Status) (t : State) : Prop where
  writing : Writing rt.toPlatform own pinned t
  done : st.ok = true → Ran sc (Action.InWrite own) s g t g ∧ ∃ f : BlockItem → BlockItem,
    (∀ b, (f b).isEmpty = false) ∧ t.items own.item = (s.items own.item).updateBlock i f
  failed : st.ok = false → Ran sc (Action.InEvict (some own)) s g t g

/-- A status of the writing that is an error. -/
theorem WroteBlock.of_failed {own : Own} {pinned : Bool} (h : Writing rt.toPlatform own pinned s)
    (hinv : Inv sc ⟨s, g⟩) (hran : Ran sc (Action.InEvict (some own)) s g t g) {st : Status}
    (hst : st.ok = false) {i : Nat} : WroteBlock sc own pinned i s g st t :=
  ⟨(h.ran hinv hran).1, fun hok => (Bool.false_ne_true (hst.symm.trans hok)).elim, fun _ => hran⟩

/-! ## One block -/

/-- The padding of a block does not leave its place. -/
theorem length_padded {pf : Platform} (hd : DataHyp pf) {bytes pad : IOBuf}
    (hlen : bytes.length ≤ pf.flags.blockSize)
    (hpad : pad = [] ∨ pf.flags.enableOsPageCache = false ∧
      (bytes ++ pad).length = roundUp bytes.length pf.flags.ioAlignUnitSize) :
    (bytes ++ pad).length ≤ pf.flags.blockSize := by
  rcases hpad with rfl | ⟨hcache, hround⟩
  · rwa [List.append_nil]
  · have hdvd := hd.align.resolve_left (by simp [hcache])
    rw [hround]
    exact BlockFile.roundUp_le pf.flags.ioAlignUnitSize_pos (hdvd.trans hd.slice_dvd) hlen

theorem blockBuffer_spec {T : Prop} (buf : IOBuf) (s : State) :
    Spec T (blockBuffer rt buf) (fun data t => t = { s with clock := t.clock } ∧ s.clock ≤ t.clock ∧
      ∀ sbuf, data = some sbuf → ∃ pad, sbuf = buf ++ pad ∧
        (pad = [] ∨ rt.flags.enableOsPageCache = false ∧
          (buf ++ pad).length = roundUp buf.length rt.flags.ioAlignUnitSize)) s := by
  unfold blockBuffer
  refine spec_ite (fun _ => ?_) fun hcache => ?_
  · rw [spec_pure]
    refine ⟨rfl, Nat.le_refl _, fun sbuf h => ?_⟩
    cases h
    exact ⟨[], (List.append_nil _).symm, Or.inl rfl⟩
  · refine (BlockFile.alignIobuf_spec buf s).mono ?_
    rintro data t ⟨rfl, hdata⟩
    refine ⟨rfl, Nat.le_succ _, fun sbuf h => ?_⟩
    obtain ⟨pad, hsbuf, hlength⟩ := hdata sbuf h
    exact ⟨pad, hsbuf, Or.inr ⟨by simpa using hcache, hsbuf ▸ hlength⟩⟩

variable {own : Own} {pinned : Bool} {i : Nat} {buf : IOBuf}

theorem Writing.leave {u : State} (h : Writing rt.toPlatform own pinned u) {locals : List Local}
    (hheld : .item own.item ∈ locals) (heffect : Collects { u with locals } t) :
    Writing rt.toPlatform own pinned t := by
  rw [heffect.eq]
  exact ⟨h.hidden, hheld, h.home, h.active, h.bit, h.mem, h.disk⟩

theorem WroteBlock.leave_spec {u : State} {st : Status} (h : WroteBlock sc own pinned i s g st u)
    (hinv : Inv sc ⟨s, g⟩) (hheld : .item own.item ∈ s.locals) :
    Spec sc.T (collect rt.toPlatform) (fun _ t => WroteBlock sc own pinned i s g st t)
      { u with locals := s.locals } := by
  cases hok : st.ok with
  | true =>
      obtain ⟨hu, f, hf, hitem⟩ := h.done hok
      refine (StarCache.leave_spec hinv hu).mono ?_
      rintro _ t ⟨ht, _, _, heffect⟩
      refine ⟨h.writing.leave hheld heffect, fun _ => ⟨ht, f, hf, ?_⟩, fun hfail => ?_⟩
      · rw [heffect.eq]
        exact hitem
      · rw [hok] at hfail
        cases hfail
  | false =>
      refine (StarCache.leave_spec hinv (h.failed hok)).mono ?_
      rintro _ t ⟨ht, _, _, heffect⟩
      refine ⟨h.writing.leave hheld heffect, fun hdone => ?_, fun _ => ht⟩
      rw [hok] at hdone
      cases hdone

/-- What the cache does before the block is touched. -/
theorem WroteBlock.after {u : State} {st : Status} (h : WroteBlock sc own pinned i u g st t)
    (hran : Ran sc (Action.InEvict (some own)) s g u g)
    (hitem : u.items own.item = s.items own.item) : WroteBlock sc own pinned i s g st t := by
  refine ⟨h.writing, fun hok => ?_, fun hfail => hran.trans (h.failed hfail)⟩
  obtain ⟨ht, f, hf, hitem'⟩ := h.done hok
  exact ⟨(hran.mono fun _ => Action.InEvict.inWrite).trans ht, f, hf, by rw [hitem', hitem]⟩

/-- What the writing of block `i` starts from. -/
structure Writable (sc : Scenario rt.toPlatform) (own : Own) (i : Nat) (buf : IOBuf) (s : State) :
    Prop where
  vacant : s.HasBlock own.item i {}
  bytes : sc.D → buf = blockPart rt.flags (sc.val own.item) i ∧ 0 < buf.length

/-- The block is in the item, and its key in the policy if it has to be. -/
theorem trackWritten_spec (hinv : Inv sc ⟨s, g⟩) (hwriting : Writing rt.toPlatform own pinned s)
    (hran : Ran sc (Action.InWrite own) s g t
      { g with memOwed := insert ⟨own.id, i⟩ g.memOwed }) {block : MemBlockItem}
    (hitem : t.items own.item = (s.items own.item).updateBlock i fun b =>
      { b with memBlockItem := some block }) (size : Nat) :
    Spec sc.T (Prog.when (!pinned || t.hasDiskLayer)
      (MemCache.evictTrack rt.toPlatform ⟨own.id, i⟩ size))
      (fun _ u => WroteBlock sc own pinned i s g .OK u) t := by
  have hinvt := hran.inv hinv
  have hnone : t.find own.id = none := (hwriting.hidden.moves hran.runs (fun _ h => h) own rfl).1
  have hf : ∀ b : BlockItem, ({ b with memBlockItem := some block } : BlockItem).isEmpty = false :=
    fun b => by simp [BlockItem.isEmpty]
  -- nothing is owed for a key that is not in the index
  have hsettle : ∀ u, Ran sc (Action.InWrite own) s g u
      { g with memOwed := insert ⟨own.id, i⟩ g.memOwed } → u.find own.id = none →
        Ran sc (Action.InWrite own) s g u g := by
    intro u hu hfind
    have hinvu := hu.inv hinv
    refine hu.settle (hinvu.memEvictable.hidden fun key hkey => ?_) hinvu.diskEvictable
      hinvu.nonEmpty
    refine hkey.elim (fun heq => Or.inr ?_) Or.inl
    rw [heq]
    exact hfind
  refine spec_when (fun _ => ?_) fun hcond => ?_
  · refine (memTrack_spec hran hinvt ⟨own.id, i⟩ trivial size (Or.inr hnone)).mono ?_
    rintro _ u ⟨hu, hueq, hin⟩
    have hitemu : u.items own.item = (s.items own.item).updateBlock i fun b =>
        { b with memBlockItem := some block } := by
      rw [hueq]
      exact hitem
    have hranu := hsettle u hu (by rw [hueq]; exact hnone)
    have hkept : u.MemKept rt.toPlatform ⟨own.id, i⟩ := by
      refine ⟨?_, Or.inl ((hin _).mpr (Or.inl rfl))⟩
      rw [hueq]
      exact List.mem_append_right _ List.mem_cons_self
    exact ⟨hwriting.update hinv hranu hitemu (Or.inr fun _ => hkept) (Or.inl fun _ h => h),
      fun _ => ⟨hranu, _, hf, hitemu⟩, fun h => by cases h⟩
  · have hrant := hsettle t hran hnone
    rw [Bool.or_eq_false_iff] at hcond
    have hlocked : t.Locked own.item := by
      refine ⟨?_, hcond.2⟩
      rw [hitem]
      exact hwriting.bit.trans (by simpa using hcond.1)
    exact ⟨hwriting.update hinv hrant hitem (Or.inr fun h => absurd hlocked h) (Or.inl fun _ h => h),
      fun _ => ⟨hrant, _, hf, hitem⟩, fun h => by cases h⟩

theorem writeMemBlock_spec (hinv : Inv sc ⟨s, g⟩) (hwriting : Writing rt.toPlatform own pinned s)
    (hblock : Writable sc own i buf s) :
    Spec sc.T (writeMemBlock rt own.item ⟨own.id, i⟩ buf pinned)
      (WroteBlock sc own pinned i s g) s := by
  have hstart : Ran sc (Action.InEvict (some own)) s g s g := .refl trivial
  have hlen : sc.D → buf.length ≤ rt.flags.blockSize := by
    intro hD
    rw [(hblock.bytes hD).1]
    exact length_blockPart_le _ _ _
  unfold writeMemBlock
  simp only [spec_bind]
  refine (blockBuffer_spec buf s).mono ?_
  rintro data u ⟨hueq, hclock, hdata⟩
  have hu : Ran sc (Action.InEvict (some own)) s g u g := by
    rw [hueq]
    exact idle_ran hstart hclock
  cases data with
  | none => exact .of_failed hwriting hinv hu rfl
  | some sbuf =>
      obtain ⟨pad, rfl, hpad⟩ := hdata sbuf rfl
      simp only [spec_bind]
      refine (allocBlockSegment_spec (hu.inv hinv) (hwriting.ran hinv hu).1.hidden _ _ _ _).mono ?_
      rintro found v ⟨hv, hnew⟩
      have hranv := hu.trans hv
      have hinvv := hranv.inv hinv
      obtain ⟨hwritingv, hitemv⟩ := hwriting.ran hinv hranv
      cases found with
      | none => exact .of_failed hwriting hinv hranv rfl
      | some ref =>
          obtain ⟨hlive, hseg⟩ := hnew ref rfl
          simp only [spec_bind]
          refine (writeBlock_spec buf (W := fun _ => True) sc.total (fun hD => ?_)).mono ?_
          · have hd := sc.data hD
            refine ⟨hd.toGeometry, hlen hD, slicesOk_new hd.toGeometry _, ?_⟩
            rw [List.map_singleton, hseg]
            have hroom := length_padded hd (hlen hD) hpad
            exact loaded_single (segmentOk_padded hd.toGeometry (hblock.bytes hD).2 hroom)
          rintro block w ⟨rfl, hslices, hcontent⟩
          refine (lock_spec hranv true ⟨own.id, i⟩).mono ?_
          rintro _ x ⟨hx, hxeq⟩
          have hranx : Ran sc (Action.InWrite own) s g x g := hx.mono fun _ => Action.InEvict.inWrite
          have hinvx := hx.inv hinv
          have hitemx : x.items own.item = s.items own.item := by
            rw [hxeq]
            exact hitemv
          have halive : x.Alive (.memBlock block) := by
            intro y hy
            rw [hxeq]
            rcases hslices y hy with hy | hy
            · cases List.eq_of_mem_replicate hy
            · rwa [List.mem_singleton.mp hy]
          refine (attachMem_spec hranx hinvx trivial halive (fun hD => ?_) (fun hindexed => ?_)
            fun _ b old hb hold => ?_).mono ?_
          · obtain ⟨_, hok, _, hcover⟩ := hcontent hD
            rw [hxeq, ← (hblock.bytes hD).1]
            refine ⟨hok.mono fun _ _ _ _ => Or.inl trivial, fun _ k hk => hcover k ⟨ref, ?_, ?_⟩⟩
            · exact List.mem_singleton_self ref
            · have hle := (sc.data hD).toGeometry.block_le
              have hbuf := hlen hD
              have hsize : u32 buf.length = buf.length := u32_of_lt (by omega)
              have hcovers : BlockSegment.Covers rt.flags ⟨0, u32 buf.length, buf ++ pad⟩ k :=
                ⟨Nat.zero_le _, by dsimp only; omega⟩
              rwa [hseg]
          · obtain ⟨id, hfind⟩ := hindexed
            rw [hxeq] at hfind
            exact absurd hfind ((hwritingv.hidden own rfl).2 id)
          · have hvacant := hblock.vacant
            unfold State.HasBlock at hb hvacant
            rw [hitemx, hvacant] at hb
            cases hb
            cases hold
          rintro _ y ⟨hy, heffect⟩
          refine (unlock_spec hy true ⟨own.id, i⟩).mono ?_
          rintro _ z ⟨hz, hzeq⟩
          rw [spec_read]
          have hhome : x.idOf rt.toPlatform own.item = own.id := by
            rw [hxeq]
            exact hwritingv.home
          rw [hhome] at hz
          have hitemz : z.items own.item = (s.items own.item).updateBlock i fun b =>
              { b with memBlockItem := some block } := by
            rw [hzeq, heffect.eq]
            dsimp only
            rw [State.withItem_items, if_pos rfl, hitemx]
          exact trackWritten_spec hinv hwriting hz hitemz _

/-- The disk block is in the item, and the id in the policy if it has to be. -/
theorem trackWrittenDisk_spec (hinv : Inv sc ⟨s, g⟩)
    (hwriting : Writing rt.toPlatform own pinned s)
    (hran : Ran sc (Action.InWrite own) s g t { g with diskOwed := insert own.id g.diskOwed })
    {id : BlockId} (hitem : t.items own.item = (s.items own.item).updateBlock i fun b =>
      { b with diskBlockItem := some id }) (size : Nat) :
    Spec sc.T (Prog.when (!pinned) (DiskCache.evictTrack rt.toPlatform own.id size))
      (fun _ u => WroteBlock sc own pinned i s g .OK u) t := by
  have hinvt := hran.inv hinv
  have hnone : t.find own.id = none := (hwriting.hidden.moves hran.runs (fun _ h => h) own rfl).1
  have hf : ∀ b : BlockItem, ({ b with diskBlockItem := some id } : BlockItem).isEmpty = false :=
    fun b => by simp [BlockItem.isEmpty]
  have hsettle : ∀ u, Ran sc (Action.InWrite own) s g u
      { g with diskOwed := insert own.id g.diskOwed } → u.find own.id = none →
        Ran sc (Action.InWrite own) s g u g := by
    intro u hu hfind
    have hinvu := hu.inv hinv
    refine hu.settle hinvu.memEvictable (hinvu.diskEvictable.hidden fun id hid => ?_)
      hinvu.nonEmpty
    refine hid.elim (fun heq => Or.inr ?_) Or.inl
    rw [heq]
    exact hfind
  refine spec_when (fun _ => ?_) fun hcond => ?_
  · refine (diskTrack_spec hran hinvt own.id trivial size (Or.inr hnone) fun r h => ?_).mono ?_
    · have : some r = none := h.symm.trans hnone
      cases this
    rintro _ u ⟨hu, hueq, hin⟩
    have hitemu : u.items own.item = (s.items own.item).updateBlock i fun b =>
        { b with diskBlockItem := some id } := by
      rw [hueq]
      exact hitem
    have hranu := hsettle u hu (by rw [hueq]; exact hnone)
    have hkept : u.DiskKept rt.toPlatform own.id := by
      refine ⟨?_, Or.inl ((hin _).mpr (Or.inl rfl))⟩
      rw [hueq]
      exact List.mem_append_right _ List.mem_cons_self
    exact ⟨hwriting.update hinv hranu hitemu (Or.inl fun _ h => h) (Or.inr fun _ => hkept),
      fun _ => ⟨hranu, _, hf, hitemu⟩, fun h => by cases h⟩
  · have hrant := hsettle t hran hnone
    have hpinned : pinned = true := by simpa using hcond
    refine ⟨hwriting.update hinv hrant hitem (Or.inl fun _ h => h) (Or.inr fun h => ?_),
      fun _ => ⟨hrant, _, hf, hitem⟩, fun h => by cases h⟩
    exact (Bool.false_ne_true (h.symm.trans hpinned)).elim

/-- A new disk block takes the bytes, and is shown to the item when it has them. -/
theorem writeNewBlock_spec (hinv : Inv sc ⟨s, g⟩) (hwriting : Writing rt.toPlatform own pinned s)
    (hblock : Writable sc own i buf s) {id : BlockId} (hlive : id ∈ s.liveBlocks)
    (howner : s.OwnerAt id own.item i) :
    Spec sc.T (do
      hold (.diskBlock id)
      let st ← DiskCache.writeBlock rt.toPlatform id ⟨0, u32 buf.length, buf⟩
      if st.ok then do
        lock true ⟨own.id, i⟩
        setDiskBlock rt.toPlatform own.item i id
        unlock true ⟨own.id, i⟩
        let s ← Prog.read
        Prog.when (!pinned) (DiskCache.evictTrack rt.toPlatform own.id (s.items own.item).size)
        pure Status.OK
      else pure st) (WroteBlock sc own pinned i s g) s := by
  have hlen : sc.D → buf.length ≤ rt.flags.blockSize := by
    intro hD
    rw [(hblock.bytes hD).1]
    exact length_blockPart_le _ _ _
  have hsegment : sc.D → SegmentOk rt.flags buf ⟨0, u32 buf.length, buf⟩ := by
    intro hD
    exact segmentOk_whole (sc.data hD).toGeometry (hblock.bytes hD).2 (hlen hD)
  have hstart : Ran sc (Action.InEvict (some own)) s g s g := .refl trivial
  simp only [spec_bind]
  have halive : s.Alive (.diskBlock id) := hlive
  refine (hold_spec hstart halive).mono ?_
  rintro _ u ⟨hu, hueq⟩
  have hinvu := hu.inv hinv
  refine (DiskCache.writeBlock_spec sc.data sc.total id
    (fun hD => ⟨hsegment hD, hlen hD⟩) fun hT => ?_).mono ?_
  · refine (hinvu.covered hT).located hinvu.wf.diskSpace ?_
    rw [hueq]
    exact hlive
  rintro st v ⟨hwrote, hslices⟩
  have hslicesv : sc.D → DiskCache.WroteSlices rt.toPlatform
      (blockPart rt.flags (sc.val own.item) i) ⟨0, u32 buf.length, buf⟩ u v id st.ok := by
    intro hD
    rw [← (hblock.bytes hD).1]
    exact hslices hD
  have hv : Ran sc (Action.InEvict (some own)) s g v g := by
    refine hu.wrote ?_ hwrote hslicesv
    rw [hueq]
    exact howner
  refine spec_ite (fun hok => ?_) fun hfail => ?_
  · simp only [spec_bind]
    refine (lock_spec hv true ⟨own.id, i⟩).mono ?_
    rintro _ w ⟨hw, hweq⟩
    have hws : w = { s with
        locals := w.locals, locks := w.locks, clock := w.clock, files := w.files,
        checksums := w.checksums } := by
      rw [hweq, hwrote.eq, hueq]
    have hranw : Ran sc (Action.InWrite own) s g w g := hw.mono fun _ => Action.InEvict.inWrite
    refine (attachDisk_spec hranw (hw.inv hinv) trivial ?_ ?_ fun hD k hk => ?_).mono ?_
    · rw [hws]
      exact hlive
    · rw [hws]
      exact howner
    · have hpos := covers_iff (hsegment hD).aligned (hsegment hD).pos k
      rw [← (hblock.bytes hD).1] at hk ⊢
      have hon := (hslices hD).written hok k (hpos.mpr ⟨?_, ?_⟩)
      · refine ⟨?_, ?_⟩ <;> rw [hweq]
        · exact hon.content
        · exact hon.checksum
      · simp
      · have hle := (sc.data hD).block_le
        have := hlen hD
        dsimp only
        rw [u32_of_lt (by omega), Nat.le_div_iff_mul_le rt.flags.sliceSize_pos]
        omega
    rintro _ x ⟨hx, heffect⟩
    refine (unlock_spec hx true ⟨own.id, i⟩).mono ?_
    rintro _ y ⟨hy, hyeq⟩
    rw [spec_read]
    have hhome : w.idOf rt.toPlatform own.item = own.id := by
      rw [hws]
      exact hwriting.home
    rw [hhome] at hy
    have hitem : y.items own.item = (s.items own.item).updateBlock i fun b =>
        { b with diskBlockItem := some id } := by
      rw [hyeq, heffect.eq, hws]
      dsimp only
      rw [State.withItem_items, if_pos rfl]
    exact trackWrittenDisk_spec hinv hwriting hy hitem _
  · exact .of_failed hwriting hinv hv (by simpa using hfail)

theorem writeDiskBlock_spec (hinv : Inv sc ⟨s, g⟩) (hwriting : Writing rt.toPlatform own pinned s)
    (hblock : Writable sc own i buf s) :
    Spec sc.T (writeDiskBlock rt own.item ⟨own.id, i⟩ buf pinned)
      (WroteBlock sc own pinned i s g) s := by
  unfold writeDiskBlock
  simp only [spec_bind]
  refine (allocDiskBlock_spec hinv hwriting.hidden.evicts _).mono ?_
  rintro found u ⟨hu, hnew⟩
  have hranu : Ran sc (Action.InEvict (some own)) s g u g := hu.mono fun _ => Action.InDisk.inEvict
  obtain ⟨hwritingu, hitemu⟩ := hwriting.ran hinv hranu
  cases found with
  | none => exact .of_failed hwriting hinv hranu rfl
  | some id =>
      obtain ⟨hidlive, howner⟩ := hnew id rfl
      have hinvu := hranu.inv hinv
      have hblocku : Writable sc own i buf u := by
        refine ⟨?_, hblock.bytes⟩
        have hvacant := hblock.vacant
        unfold State.HasBlock at hvacant ⊢
        rwa [hitemu]
      refine scope_rule (writeNewBlock_spec hinvu hwritingu hblocku hidlive (howner _ _)) ?_
      intro st v hv
      refine (hv.leave_spec hinvu hwritingu.held).mono ?_
      intro _ t ht
      exact ht.after hranu hitemu

/-! ## All blocks -/

section Blocks

variable {T : Prop} {options : Option WriteOptions}

/-- The promotion policy decides, whatever the state has become. -/
def Decides (rt : Runtime) (options : Option WriteOptions) (s : State) : Prop :=
  ∀ t, Static s t → ∀ n item key, rt.promotionPolicy.checkWrite n t item key options ≠ none

/-- `_write_block`. -/
theorem writeBlock_spec (hinv : Inv sc ⟨s, g⟩)
    (hwriting : Writing rt.toPlatform own (options.any (·.pinned)) s)
    (hblock : Writable sc own i buf s) (hT : T → sc.T ∧ Decides rt options s) :
    Spec T (writeBlock rt own.item ⟨own.id, i⟩ buf options)
      (WroteBlock sc own (options.any (·.pinned)) i s g) s := by
  have hstart : Ran sc (Action.InEvict (some own)) s g s g := .refl trivial
  unfold writeBlock
  simp only [spec_bind]
  refine getBlock_spec (fun _ => (List.getElem?_eq_some_iff.mp hblock.vacant).1) fun b _ => ?_
  refine (tick_spec hstart).mono ?_
  rintro n u ⟨hu, _, hueq⟩
  rw [spec_read]
  refine spec_deref (fun ht => ?_) fun location _ => ?_
  · exact (hT ht).2 u hu.static _ _ _
  have hinvu := hu.inv hinv
  obtain ⟨hwritingu, hitemu⟩ := hwriting.ran hinv hu
  have hblocku : Writable sc own i buf u := by
    rw [hueq]
    exact ⟨hblock.vacant, hblock.bytes⟩
  cases location with
  | mem =>
      refine ((writeMemBlock_spec hinvu hwritingu hblocku).weaken fun ht => (hT ht).1).mono ?_
      intro _ t ht
      exact ht.after hu hitemu
  | disk =>
      refine ((writeDiskBlock_spec hinvu hwritingu hblocku).weaken fun ht => (hT ht).1).mono ?_
      intro _ t ht
      exact ht.after hu hitemu
  | none => exact .of_failed hwriting hinv hu rfl

/-- One more block is filled, and the others are as they were. -/
theorem filled_updateBlock {f : BlockItem → BlockItem} (hf : ∀ b, (f b).isEmpty = false)
    (hitem : t.items r = (s.items r).updateBlock i f) :
    (s.Filled r → t.Filled r) ∧ (s.HasBlock r i {} → t.Filled r) ∧
      ∀ j, j ≠ i → s.HasBlock r j {} → t.HasBlock r j {} := by
  have hblock : ∀ j b, s.HasBlock r j b → t.HasBlock r j (if i = j then f b else b) := by
    intro j b hb
    unfold State.HasBlock at hb ⊢
    rw [hitem]
    unfold CacheItem.updateBlock
    dsimp only
    rw [List.getElem?_modify, hb]
    split <;> rfl
  refine ⟨?_, fun hb => ⟨i, _, hblock i _ hb, ?_⟩, fun j hj hb => ?_⟩
  · rintro ⟨j, b, hb, hne⟩
    refine ⟨j, _, hblock j b hb, ?_⟩
    split
    · exact hf b
    · exact hne
  · rw [if_pos rfl]
    exact hf _
  · have := hblock j _ hb
    rwa [if_neg (Ne.symm hj)] at this

/-- The loop of `_write_cache_item`, on a part of the indexes. -/
theorem writeLoop_spec (hinv : Inv sc ⟨s, g⟩)
    (hwriting : Writing rt.toPlatform own (options.any (·.pinned)) s) (indexes : List Nat)
    (hnodup : indexes.Nodup)
    (hblocks : ∀ i ∈ indexes, Writable sc own i (blockBytes rt.flags buf i) s)
    (hT : T → sc.T ∧ Decides rt options s) :
    Spec T (forUntil (fun st => !st.ok) .OK indexes fun i =>
        writeBlock rt own.item ⟨own.id, i⟩ (blockBytes rt.flags buf i) options) (fun st t =>
      Writing rt.toPlatform own (options.any (·.pinned)) t ∧
      Ran sc (Action.InWrite own) s g t g ∧
      (st.ok = true → indexes = [] ∨ t.Filled own.item)) s := by
  have hstart : Ran sc (Action.InWrite own) s g s g := .refl trivial
  apply spec_forUntil (fun rest t => Ran sc (Action.InWrite own) s g t g ∧
    Writing rt.toPlatform own (options.any (·.pinned)) t ∧ rest.Nodup ∧
    (∀ i ∈ rest, Writable sc own i (blockBytes rt.flags buf i) t) ∧
    (rest = indexes ∨ t.Filled own.item))
  · rintro i rest t ⟨ht, hwritingt, hnodup, hblocks, _⟩
    refine (writeBlock_spec (ht.inv hinv) hwritingt (hblocks i List.mem_cons_self) fun h =>
      ⟨(hT h).1, fun u hu => (hT h).2 u (ht.static.trans hu)⟩).mono ?_
    intro st u hu
    cases hok : st.ok with
    | false =>
        have hrun := (hu.failed hok).mono fun _ => Action.InEvict.inWrite
        exact ⟨hu.writing, ht.trans hrun, fun h => by cases h⟩
    | true =>
        obtain ⟨hrun, f, hf, hitem⟩ := hu.done hok
        obtain ⟨_, hnew, hother⟩ := filled_updateBlock hf hitem
        rw [List.nodup_cons] at hnodup
        refine ⟨ht.trans hrun, hu.writing, hnodup.2, fun j hj => ?_,
          Or.inr (hnew (hblocks i List.mem_cons_self).vacant)⟩
        have hblock := hblocks j (List.mem_cons_of_mem _ hj)
        refine ⟨hother j ?_ hblock.vacant, hblock.bytes⟩
        rintro rfl
        exact hnodup.1 hj
  · rintro t ⟨ht, hwritingt, _, _, hfilled⟩
    exact ⟨hwritingt, ht, fun _ => hfilled.imp_left Eq.symm⟩
  · exact ⟨hstart, hwriting, hnodup, hblocks, Or.inl rfl⟩

end Blocks

/-! ## Publication -/

/-- The steps of `publish` and the deleters that follow. -/
def OnlyPublish (id : CacheId) (a : Action) : Prop := a = .other ∨ a = .publish id

theorem indexInsert_spec {T : Prop} (hinv : Inv sc ⟨s, g⟩)
    (hwriting : Writing rt.toPlatform own pinned s) (hfilled : s.Filled own.item) :
    Spec T (indexInsert rt.toPlatform own.id own.item) (fun _ t =>
      Ran sc (OnlyPublish own.id) s g t (g.published own.id t) ∧ t.find own.id = some own.item ∧
        t.Filled own.item) s := by
  unfold indexInsert
  simp only [spec_bind, spec_modify]
  have hstart : Ran sc (OnlyPublish own.id) s g s g := .refl (Or.inl rfl)
  have hlive := hinv.wf.local_alive hwriting.held
  have hpublish := hstart.step (Or.inr rfl)
    (.publish own.id own.item hlive hwriting.home hwriting.active) (fun _ h => h) rfl rfl
  refine (emit_spec hpublish (.indexInsert own.id) trivial).mono ?_
  rintro _ u ⟨hu, hueq⟩
  refine (collect_ran hu (hu.inv hinv)).mono ?_
  rintro _ t ⟨ht, heffect, _⟩
  have hinvt := ht.inv hinv
  have huntrack : ¬ OnlyPublish own.id (.untrack own.id) := by
    rintro (h | h) <;> cases h
  have hpin : ∀ r, ¬ OnlyPublish own.id (.pin r) := by
    rintro r (h | h) <;> cases h
  have hfind : t.find own.id = some own.item := by
    rw [heffect.find, hueq]
    exact (State.find_insert ..).trans (if_pos rfl)
  have hblock : ∀ i b, t.HasBlock own.item i b ↔ s.HasBlock own.item i b := by
    intro i b
    rw [heffect.hasBlock, hueq]
    rfl
  have hpinned : (t.items own.item).pinned = pinned := by
    rw [heffect.eq, hueq]
    exact hwriting.bit
  have hfilledt : t.Filled own.item := by
    obtain ⟨i, b, hb, hne⟩ := hfilled
    exact ⟨i, b, (hblock i b).mpr hb, hne⟩
  refine ⟨ht.settle (fun id r i b hf hb hne hfree => ?_) (fun id r i b hf hb hne hbit => ?_) ?_,
    hfind, hfilledt⟩
  · rcases hinvt.memEvictable id r i b hf hb hne hfree with htracked | howed | howed
    · exact Or.inl htracked
    · have hid : id = own.id := howed
      subst hid
      obtain rfl : r = own.item := Option.some.inj (hf.symm.trans hfind)
      have hkept := Runs.memKept ht.runs hinv huntrack hpin
        (hwriting.mem i b ((hblock i b).mp hb) hne fun h => ?_)
      · exact hkept.2.imp_right fun hlost => Or.inl ⟨rfl, hlost⟩
      · exact hfree ⟨hpinned.trans (hwriting.bit.symm.trans h.1), ht.static.hasDiskLayer.trans h.2⟩
    · exact Or.inr (Or.inr howed)
  · rcases hinvt.diskEvictable id r i b hf hb hne hbit with htracked | (howed | howed) | hlost
    · exact Or.inl htracked
    · subst howed
      obtain rfl : r = own.item := Option.some.inj (hf.symm.trans hfind)
      have hkept := Runs.diskKept ht.runs hinv huntrack hpin
        (hwriting.disk i b ((hblock i b).mp hb) hne (hpinned.symm.trans hbit))
      exact hkept.2.imp_right fun hlost => Or.inl (Or.inl ⟨rfl, hlost⟩)
    · exact Or.inr (Or.inl (Or.inr howed))
    · exact Or.inr (Or.inr hlost)
  · exact hinvt.nonEmpty.drop fun id _ => Or.inl hfilledt

/-! ## The whole item -/

theorem onlyPublish_inSet {id : CacheId} {n : ItemRef} {a : Action} (h : OnlyPublish id a) :
    a.InSet id n := by
  rcases h with rfl | rfl
  · trivial
  · rfl

/-- The outcome of the writing of an item: it is in the index, or out of sight as before. -/
structure WroteItem (sc : Scenario rt.toPlatform) (own : Own) (n : ItemRef) (s : State) (g : Ghost)
    (st : Status) (t : State) : Prop where
  done : st.ok = true →
    Ran sc (Action.InSet own.id n) s g t (g.published own.id t) ∧ t.find own.id = some own.item
  failed : st.ok = false → Ran sc (Action.InSet own.id n) s g t g ∧ t.Private (some own)

/-- A new item that is about to be written. -/
structure Blank (rt : Runtime) (own : Own) (buf : IOBuf) (s : State) : Prop where
  hidden : s.Private (some own)
  held : .item own.item ∈ s.locals
  item : ∃ cacheKey expireTime, rt.cachekey2id cacheKey = own.id ∧
    s.items own.item = .new rt.flags cacheKey buf.length expireTime

theorem Blank.hasBlock (h : Blank rt own buf s) {b : BlockItem} :
    s.HasBlock own.item i b ↔ i < blockCountOf rt.flags buf.length ∧ b = {} := by
  obtain ⟨cacheKey, expireTime, _, hitem⟩ := h.item
  unfold State.HasBlock
  rw [hitem]
  unfold CacheItem.new
  dsimp only
  rw [List.getElem?_replicate]
  split
  next hlt => exact ⟨fun heq => ⟨hlt, (Option.some.inj heq).symm⟩, fun hb => by rw [hb.2]⟩
  next hge => exact ⟨(fun heq => by cases heq), fun hb => absurd hb.1 hge⟩

/-- The item gets its pinned bit before its first block. -/
theorem pinNew_spec {T : Prop} {n : ItemRef} (hinv : Inv sc ⟨s, g⟩) (hblank : Blank rt own buf s)
    (hn : n ≤ own.item) (pinned : Bool) :
    Spec T (Prog.when pinned (do let _ ← setPinned own.item true)) (fun _ t =>
      Ran sc (Action.InSet own.id n) s g t g ∧ t.items own.item =
        { s.items own.item with pinned } ∧ t = { s with items := t.items }) s := by
  obtain ⟨cacheKey, expireTime, hid, hitem⟩ := hblank.item
  have hstart : Ran sc (Action.InSet own.id n) s g s g := .refl trivial
  refine spec_when (fun hpinned => ?_) fun hpinned => ?_
  · simp only [spec_bind]
    refine (setPinned_spec hstart hn true).mono ?_
    rintro _ t ⟨ht, _, hteq⟩
    have hinvt := ht.inv hinv
    have hhome : s.idOf rt.toPlatform own.item = own.id := by
      unfold State.idOf
      rw [hitem]
      exact hid
    have hnone : t.find own.id = none := by
      rw [hteq]
      exact (hblank.hidden own rfl).1
    rw [hhome] at ht hinvt
    rw [spec_pure]
    refine ⟨ht.settle (hinvt.memEvictable.hidden fun key hkey => ?_)
      (hinvt.diskEvictable.hidden fun id hid => ?_) hinvt.nonEmpty, ?_, by rw [hteq]; rfl⟩
    · refine hkey.elim (fun heq => Or.inr ?_) Or.inl
      have heq : key.cacheId = own.id := heq
      rw [heq]
      exact hnone
    · refine hid.elim (fun heq => Or.inr ?_) Or.inl
      rw [heq]
      exact hnone
    · rw [hteq, State.withItem_items, if_pos rfl, hpinned]
  · refine ⟨hstart, ?_, rfl⟩
    rw [hpinned, hitem]
    rfl

theorem Blank.writing (h : Blank rt own buf s)
    (hitem : t.items own.item = { s.items own.item with pinned })
    (hsame : t = { s with items := t.items }) : Writing rt.toPlatform own pinned t ∧
      ∀ i < blockCountOf rt.flags buf.length, t.HasBlock own.item i {} := by
  obtain ⟨cacheKey, expireTime, hid, hnew⟩ := h.item
  have hblock : ∀ i b, t.HasBlock own.item i b ↔ i < blockCountOf rt.flags buf.length ∧ b = {} := by
    intro i b
    rw [← h.hasBlock]
    unfold State.HasBlock
    rw [hitem]
  have hlocals : t.locals = s.locals := by rw [hsame]
  refine ⟨⟨?_, ?_, ?_, ?_, by rw [hitem], ?_, ?_⟩, fun i hi => (hblock i _).mpr ⟨hi, rfl⟩⟩
  · rw [hsame]
    exact h.hidden
  · rw [hlocals]
    exact h.held
  · unfold State.idOf
    rw [hitem, hnew]
    exact hid
  · rw [hitem, hnew]
    rfl
  · intro i b hb hmem
    rw [((hblock i b).mp hb).2] at hmem
    exact absurd rfl hmem
  · intro i b hb hdisk
    rw [((hblock i b).mp hb).2] at hdisk
    exact absurd rfl hdisk

/-- The bytes of a block are a part of the object. -/
theorem blockBytes_eq {flags : Flags} (hbuf : 0 < buf.length)
    (hi : i < blockCountOf flags buf.length) :
    blockBytes flags buf i = blockPart flags buf i ∧ 0 < (blockBytes flags buf i).length := by
  have heq : blockBytes flags buf i = blockPart flags buf i := by
    unfold blockBytes
    split
    next => rfl
    next hone =>
      have hcount : blockCountOf flags buf.length = 1 := by
        unfold blockCountOf
        rw [if_neg (by omega)]
        generalize (buf.length - 1) / flags.blockSize = q at hone ⊢
        omega
      have hle : buf.length ≤ flags.blockSize := by
        have := le_blockCountOf_mul flags buf.length
        rwa [hcount, Nat.one_mul] at this
      obtain rfl : i = 0 := by omega
      unfold blockPart
      rw [Nat.zero_mul, List.drop_zero, List.take_of_length_le hle]
  refine ⟨heq, ?_⟩
  rw [heq, length_blockPart]
  have := flags.blockSize_pos
  have := lt_blockCountOf.mp hi
  omega

theorem writeBlocks_spec {T : Prop} {options : Option WriteOptions} {n : ItemRef}
    (hinv : Inv sc ⟨s, g⟩) (hblank : Blank rt own buf s) (hn : n ≤ own.item)
    (hbuf : 0 < buf.length)
    (hval : sc.D → sc.val own.item = buf ∧ blockCountOf rt.flags buf.length < 4294967296)
    (hT : T → sc.T ∧ Decides rt options s) :
    Spec T (writeBlocks rt own.id own.item buf options) (WroteItem sc own n s g) s := by
  have hcount : blockCountOf rt.flags buf.length = (buf.length - 1) / rt.flags.blockSize + 1 := by
    unfold blockCountOf
    rw [if_neg (by omega)]
  have hend : u32 ((buf.length - 1) / rt.flags.blockSize : Nat) <
      blockCountOf rt.flags buf.length := by
    rw [hcount, u32_natCast]
    have := Nat.mod_le ((buf.length - 1) / rt.flags.blockSize) 4294967296
    omega
  unfold writeBlocks
  simp only [spec_bind]
  refine (pinNew_spec (n := n) hinv hblank hn (options.any (·.pinned))).mono ?_
  rintro _ u ⟨hu, hitem, hueq⟩
  have hinvu := hu.inv hinv
  obtain ⟨hwriting, hvacant⟩ := hblank.writing hitem hueq
  refine (writeLoop_spec hinvu hwriting _ List.nodup_range (fun i hi => ?_) fun ht =>
    ⟨(hT ht).1, fun v hv => (hT ht).2 v (hu.static.trans hv)⟩).mono ?_
  · have hlt : i < blockCountOf rt.flags buf.length := by
      have := List.mem_range.mp hi
      omega
    refine ⟨hvacant i hlt, fun hD => ?_⟩
    rw [(hval hD).1]
    exact blockBytes_eq hbuf hlt
  rintro st v ⟨hwritingv, hv, hfilled⟩
  have hranv : Ran sc (Action.InSet own.id n) s g v g :=
    hu.trans (hv.mono fun _ => Action.InWrite.inSet)
  have hinvv := hv.inv hinvu
  refine spec_ite (fun hok => ?_) fun hfail => ?_
  · simp only [spec_bind]
    refine spec_require (fun ht => ?_) fun _ => ?_
    · have := (hval (sc.total (hT ht).1)).2
      omega
    refine (indexInsert_spec hinvv hwritingv ((hfilled hok).resolve_left (by simp))).mono ?_
    rintro _ t ⟨ht, hfind, _⟩
    rw [spec_pure]
    exact ⟨fun _ => ⟨hranv.trans (ht.mono fun _ => onlyPublish_inSet), hfind⟩, fun h => by cases h⟩
  · rw [spec_pure]
    exact ⟨fun hok => absurd hok hfail, fun _ => ⟨hranv, hwritingv.hidden⟩⟩

/-- Allocation of the item fails with a null pointer. -/
def AllocFails (rt : Runtime) (cacheKey : CacheKey) (buf : IOBuf) (options : Option WriteOptions)
    (s : State) : Prop :=
  ∃ t, allocCacheItem rt cacheKey buf.length
    (u64 (rt.env.monotonicTime s.clock + (options.map (·.ttlSeconds)).getD 0))
      { s with clock := s.clock + 1 } = some (none, t)

/-- `_write_cache_item`. -/
theorem writeCacheItem_spec {T : Prop} {options : Option WriteOptions} (hinv : Inv sc ⟨s, g⟩)
    {id : CacheId} {cacheKey : CacheKey} (hid : rt.cachekey2id cacheKey = id)
    (hnone : s.find id = none) (hbuf : 0 < buf.length)
    (hval : sc.D → sc.val s.itemCount = buf ∧ blockCountOf rt.flags buf.length < 4294967296)
    (hT : T → sc.T ∧ Decides rt options s ∧ ¬ AllocFails rt cacheKey buf options s) :
    Spec T (writeCacheItem rt id cacheKey buf options) (fun st t =>
      WroteItem sc ⟨s.itemCount, id⟩ s.itemCount s g st t ∧
      (st.ok = true → (t.items s.itemCount).cacheKey = cacheKey)) s := by
  have hstart : Ran sc (Action.InSet id s.itemCount) s g s g := .refl trivial
  unfold writeCacheItem
  simp only [spec_bind]
  refine (tick_spec hstart).mono ?_
  rintro n u ⟨hu, rfl, hueq⟩
  subst hueq
  have hinvu := hu.inv hinv
  have halloc := allocCacheItem_spec hinvu cacheKey buf.length
    (u64 (rt.env.monotonicTime s.clock + (options.map (·.ttlSeconds)).getD 0)) fun hD =>
      ⟨by rw [(hval hD).1], hbuf, (hval hD).2⟩
  refine (halloc.weaken fun ht => (hT ht).1).imp ?_
  rintro found v heq ⟨hv, hnew⟩
  have hranv : Ran sc (Action.InSet id s.itemCount) s g v g :=
    hu.trans (hv.mono fun _ => Action.InCreate.inSet)
  cases found with
  | none => exact fun ht => (hT ht).2.2 ⟨v, heq⟩
  | some r =>
      obtain ⟨hr, hcreated⟩ := hnew r rfl
      have hr : r = s.itemCount := hr
      subst hr
      have hinvv := hranv.inv hinv
      have hnonev : v.find id = none :=
        Runs.find_none hv.runs (fun h => h) hnone
      have hkey : ∀ {t}, Static v t → (t.items s.itemCount).cacheKey = cacheKey := by
        intro t hstatic
        rw [(hstatic.item _ (hinvv.wf.item_lt _ hcreated.live)).1, hcreated.item]
        rfl
      refine scope_rule (R := WroteItem sc ⟨s.itemCount, id⟩ s.itemCount v g) ?_ ?_
      · simp only [spec_bind]
        have halive : v.Alive (.item s.itemCount) := hcreated.live
        have hstartv : Ran sc (Action.InSet id s.itemCount) v g v g := .refl trivial
        refine (hold_spec hstartv halive).mono ?_
        rintro _ w ⟨hw, hweq⟩
        have hblank : Blank rt ⟨s.itemCount, id⟩ buf w := by
          rw [hweq]
          refine ⟨?_, List.mem_cons_self, cacheKey, _, hid, hcreated.item⟩
          rintro o ho
          cases ho
          exact ⟨hnonev, hcreated.unindexed⟩
        refine (writeBlocks_spec (hw.inv hinvv) hblank (Nat.le_refl _) hbuf hval fun ht =>
          ⟨(hT ht).1, fun x hx => (hT ht).2.1 x ((hranv.trans hw).static.trans hx)⟩).mono ?_
        rintro st x ⟨hdone, hfailed⟩
        refine ⟨fun hok => ?_, fun hfail => ?_⟩
        · obtain ⟨hx, hfind⟩ := hdone hok
          exact ⟨hw.trans hx, hfind⟩
        · obtain ⟨hx, hhidden⟩ := hfailed hfail
          exact ⟨hw.trans hx, hhidden⟩
      · rintro st x ⟨hdone, hfailed⟩
        cases hok : st.ok with
        | true =>
            obtain ⟨hx, hfind⟩ := hdone hok
            refine (leave_spec hinvv hx).mono ?_
            rintro _ t ⟨ht, _, _, heffect⟩
            refine ⟨⟨fun _ => ⟨?_, ?_⟩, fun h => ?_⟩, fun _ => hkey ht.static⟩
            · have hghost : g.published id t = g.published id x := by
                rw [heffect.eq]
                rfl
              rw [hghost]
              exact hranv.trans ht
            · rw [heffect.find]
              exact hfind
            · rw [hok] at h
              cases h
        | false =>
            obtain ⟨hx, hhidden⟩ := hfailed hok
            refine (leave_spec hinvv hx).mono ?_
            rintro _ t ⟨ht, _, _, heffect⟩
            refine ⟨⟨fun h => ?_, fun _ => ⟨hranv.trans ht, ?_⟩⟩, fun h => ?_⟩
            · rw [hok] at h
              cases h
            · rw [heffect.eq]
              exact hhidden
            · cases h

end StarCacheImpl

end StarCache
