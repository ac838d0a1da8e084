import StarCache.Refinement.Runs

/-!
# Sets that return

`_write_cache_item` uses its item without a look at whether the allocation has given one, so a
set returns exactly if one of the attempts to allocate the item finds room. All later
allocations are checked: when one of them gives up, so does the set.
-/

namespace StarCache

open Prog MachineInt StarCacheImpl

/-- What a set may do to the item that it has found. -/
def Action.InUnlink (id : CacheId) : Action → Prop
  | .other | .untrack _ | .change _ => True
  | .remove id' => id' = id
  | _ => False

section Statement

variable (rt : Runtime)

/-- The expiry time of the item that a set in `u` allocates. -/
def itemExpireTime (options : Option WriteOptions) (u : State) : Nat :=
  u64 (rt.env.monotonicTime u.clock + (options.map (·.ttlSeconds)).getD 0)

/-- One of the attempts to allocate the item finds room for it, the first one or one that
follows an eviction. -/
def ItemRoom (cacheKey : CacheKey) (buf : IOBuf) (options : Option WriteOptions) (u : State) :
    Prop :=
  ∃ i < rt.flags.maxRetryWhenAllocate, ∃ t,
    Tries (fun i => MemCache.newCacheItem rt.toPlatform cacheKey buf.length
        (itemExpireTime rt options u) (i != 0)) (evictMemBlock rt buf.length)
      { u with clock := u.clock + 1 } i t ∧
    (t.memSpace.incMem rt.flags (itemCharge rt.toPlatform cacheKey buf.length) (i != 0)).1 = true

variable (id : CacheId) (r : ItemRef) (buf : IOBuf) (options : Option WriteOptions)

/-- The first blocks of the loop have been written, each with the status OK. -/
inductive Wrote (s : State) : Nat → State → Prop
  | start : Wrote s 0 s
  | next {i : Nat} {t u : State} {st : Status} : Wrote s i t →
      writeBlock rt r ⟨id, i⟩ (blockBytes rt.flags buf i) options t = some (st, u) →
        st.ok = true → Wrote s (i + 1) u

/-- The loop over the blocks starts in `t`, with the item `r`. -/
def LoopStarts (cacheKey : CacheKey) (u t : State) : Prop :=
  ∃ v, allocCacheItem rt cacheKey buf.length (itemExpireTime rt options u)
      { u with clock := u.clock + 1 } = some (some r, v) ∧
    Prog.when (options.any (·.pinned)) (do let _ ← setPinned r true)
      { v with locals := .item r :: v.locals } = some ((), t)

end Statement

section Set

variable {rt : Runtime} {cacheKey : CacheKey} {buf : IOBuf} {options : Option WriteOptions}
  {s t u v : State} {st : Status} {id : CacheId} {r : ItemRef}

/-! ## The allocation of the item -/

theorem unlinked_unique (hu : Unlinked rt.toPlatform id s u)
    (hv : Unlinked rt.toPlatform id s v) : u = v := by
  unfold Unlinked at hu hv
  cases hfind : s.find id with
  | none =>
      rw [hfind] at hu hv
      exact hu.trans hv.symm
  | some r =>
      rw [hfind] at hu hv
      exact (Prod.mk.inj (Option.some.inj (hu.symm.trans hv))).2

/-- The item of a set that returns has been allocated, and its status is that of the loop or of
the publication after it. -/
theorem writeCacheItem_loops
    (hwrite : writeCacheItem rt id cacheKey buf options u = some (st, v)) :
    ∃ r w st' x, LoopStarts rt r buf options cacheKey u w ∧
      forUntil (fun st => !st.ok) .OK
        (List.range (u32 ((buf.length - 1) / rt.flags.blockSize : Nat) + 1))
        (fun i => writeBlock rt r ⟨id, i⟩ (blockBytes rt.flags buf i) options) w = some (st', x) ∧
      (st'.ok = true → st.ok = true) ∧
      (st'.ok = false → st = st' ∧ ∃ locals,
        collect rt.toPlatform { x with locals } = some ((), v)) := by
  unfold writeCacheItem at hwrite
  obtain ⟨_, _, htick, hwrite⟩ := bind_eq_some.mp hwrite
  cases htick
  obtain ⟨found, x, halloc, hwrite⟩ := bind_eq_some.mp hwrite
  cases found with
  | none => cases hwrite
  | some r =>
      dsimp only at hwrite
      obtain ⟨y, hbody, hcollect⟩ := scope_cases hwrite
      obtain ⟨_, _, hhold, hbody⟩ := bind_eq_some.mp hbody
      cases hhold
      unfold writeBlocks at hbody
      obtain ⟨_, w, hpin, hbody⟩ := bind_eq_some.mp hbody
      obtain ⟨st', z, hloop, hbody⟩ := bind_eq_some.mp hbody
      refine ⟨r, w, st', z, ⟨x, halloc, hpin⟩, hloop, ?_, ?_⟩
      · intro hok
        rw [hok, if_pos rfl] at hbody
        obtain ⟨_, _, _, hbody⟩ := bind_eq_some.mp hbody
        obtain ⟨_, _, _, hbody⟩ := bind_eq_some.mp hbody
        cases hbody
        rfl
      · intro hfail
        rw [hfail, if_neg Bool.false_ne_true] at hbody
        cases hbody
        exact ⟨rfl, _, hcollect⟩

/-! ## The loop -/

section Inv

variable {sc : Scenario rt.toPlatform} {g : Ghost}

/-- The item that a set has found is unlinked. -/
theorem unlinked_ran (hinv : Inv sc ⟨s, g⟩) (h : Unlinked rt.toPlatform id s u) :
    Ran sc (Action.InUnlink id) s g u g ∧ u.find id = none := by
  have hstart : Ran sc (Action.InUnlink id) s g
      { s with concurrentWrites := s.concurrentWrites + 1 } g :=
    idle_ran (.refl trivial) (Nat.le_refl _)
  unfold Unlinked at h
  cases hfind : s.find id with
  | none =>
      rw [hfind] at h
      rw [h]
      exact ⟨hstart, hfind⟩
  | some r =>
      rw [hfind] at h
      have halive : State.Alive { s with concurrentWrites := s.concurrentWrites + 1 } (.item r) :=
        hinv.wf.indexed_live hfind
      have hheld := ((hold_spec (T := False) hstart halive).outcome rfl).1
      have hremove := removeCacheItem_spec (P := Action.InUnlink id) (hheld.inv hinv) trivial hfind
        List.mem_cons_self trivial trivial (Or.inl rfl) (s.items r).released
      rw [withItem_same { s with
        concurrentWrites := s.concurrentWrites + 1, locals := .item r :: s.locals } r] at hremove
      obtain ⟨hran, hnone, _⟩ := hremove.outcome h
      exact ⟨hheld.trans hran, hnone⟩

end Inv

end Set

theorem run_set {rt : Runtime} {s t : State} {reply : Reply} {cacheKey : CacheKey} {buf : IOBuf}
    {options : Option WriteOptions} :
    (Call.set cacheKey buf options).run rt s = some (reply, t) ↔
      StarCacheImpl.set rt cacheKey buf options s.reset = some (reply.status, t) ∧
        reply.buf = [] := by
  constructor
  · intro hcall
    obtain ⟨_, _, hreset, hbody⟩ := bind_eq_some.mp hcall
    cases hreset
    obtain ⟨st, u, hset, hbody⟩ := bind_eq_some.mp hbody
    cases hbody
    exact ⟨hset, rfl⟩
  · rintro ⟨hset, hbuf⟩
    refine bind_eq_some.mpr ⟨(), s.reset, rfl, bind_eq_some.mpr ⟨_, _, hset, ?_⟩⟩
    obtain ⟨status, data⟩ := reply
    cases hbuf
    rfl

/-! ## The memory for the item -/

/-- `inc_mem` grants the charge of the item at the first attempt. -/
def ItemGranted (rt : Runtime) (cacheKey : CacheKey) (buf : IOBuf) (u : State) : Prop :=
  0 < rt.flags.maxRetryWhenAllocate ∧
    (u.memSpace.incMem rt.flags (itemCharge rt.toPlatform cacheKey buf.length) false).1 = true

/-- The attempts that follow have nothing to count on: no block can be evicted from memory, and
the private area has no room for the item. -/
def NothingToGive (rt : Runtime) (cacheKey : CacheKey) (buf : IOBuf) (u : State) : Prop :=
  (∀ key, ¬ u.memTracker.Idle rt.blockKeyHash key) ∧
    u.memSpace.privateQuotaBytes < itemCharge rt.toPlatform cacheKey buf.length

section Grant

variable {rt : Runtime} {cacheKey : CacheKey} {buf : IOBuf} {options : Option WriteOptions}
  {s t u : State}

theorem ItemGranted.room (h : ItemGranted rt cacheKey buf u) : ItemRoom rt cacheKey buf options u :=
  ⟨0, h.1, _, .first, h.2⟩

/-- A refused request leaves the quota, the used bytes and the private area as they are. -/
theorem incMem_refused {flags : Flags} {mgr : MemSpaceManager} {size : Nat} {urgent : Bool}
    (h : (mgr.incMem flags size urgent).1 = false) : (mgr.incMem flags size urgent).2 =
      { mgr with needBytes := i64 (mgr.needBytes + size) } := by
  unfold MemSpaceManager.incMem at h ⊢
  split at h
  next => cases h
  next hprivate =>
    rw [if_neg hprivate]
    dsimp only at h ⊢
    split at h
    next => cases h
    next hfull => rw [if_neg hfull]

/-- A request that the private area does not answer. -/
theorem incMem_public {flags : Flags} {mgr : MemSpaceManager} {size : Nat} {urgent : Bool}
    (h : ¬ (urgent = true ∧ size ≤ mgr.privateQuotaBytes)) :
    (mgr.incMem flags size urgent).1 = decide (u64 (mgr.usedBytes + size) <
      u64 (u64 (mgr.quotaBytes - mgr.privateQuotaBytes) * flags.allocMemThreshold) / 100) := by
  unfold MemSpaceManager.incMem
  rw [if_neg h]
  dsimp only
  split
  next hlt => exact (decide_eq_true hlt).symm
  next hge => exact (decide_eq_false hge).symm

/-- Where the private area has no room an urgent request is treated as any other. -/
theorem incMem_urgent {flags : Flags} {mgr : MemSpaceManager} {size : Nat} (urgent : Bool)
    (h : mgr.privateQuotaBytes < size) (needBytes : Int) :
    ({ mgr with needBytes }.incMem flags size urgent).1 = (mgr.incMem flags size false).1 := by
  have hpublic : ¬ (urgent = true ∧ size ≤ mgr.privateQuotaBytes) := fun hin =>
    absurd hin.2 (Nat.not_le.mpr h)
  have hfalse : ¬ (false = true ∧ size ≤ mgr.privateQuotaBytes) := fun hin =>
    Bool.false_ne_true hin.1
  exact Eq.trans (@incMem_public flags { mgr with needBytes } size urgent hpublic)
    (@incMem_public flags mgr size false hfalse).symm

/-- An eviction that finds nothing gives back nothing. -/
theorem evictMemBlock_nothing {out : List EvictionHandle}
    (hinv : s.memTracker.Inv rt.blockKeyHash out)
    (hidle : ∀ key, ¬ s.memTracker.Idle rt.blockKeyHash key) {size : Nat}
    (hrun : evictMemBlock rt size s = some ((), t)) :
    t.memTracker.Inv rt.blockKeyHash out ∧ (∀ key, ¬ t.memTracker.Idle rt.blockKeyHash key) ∧
      t.memSpace = s.memSpace := by
  obtain ⟨hinv', _, hfree, _, hidle'⟩ := LruEvictionPolicy.Inv.evictShards
    (u64 (size * rt.flags.memEvictTimes : Nat)) (List.range s.memTracker.shardCount)
    s.memTracker hinv
  have hnil : (s.memTracker.evict (u64 (size * rt.flags.memEvictTimes : Nat))).1 = [] :=
    List.eq_nil_iff_forall_not_mem.mpr fun key hkey => hidle key (hfree key hkey)
  obtain ⟨keys, u, hevict, hprocess⟩ := bind_eq_some.mp hrun
  obtain ⟨keys', v, hgive, hrecord⟩ := bind_eq_some.mp hevict
  cases hgive
  obtain ⟨_, w, hemit, hpure⟩ := bind_eq_some.mp hrecord
  cases hemit
  cases hpure
  rw [hnil] at hprocess
  cases hprocess
  exact ⟨hinv', fun key hkey => hidle key ((hidle' key).mp hkey).1, rfl⟩

/-- With nothing to give, all attempts see the same memory. -/
theorem tries_nothing {out : List EvictionHandle} (hinv : s.memTracker.Inv rt.blockKeyHash out)
    (hnothing : NothingToGive rt cacheKey buf s) (hrefused : (s.memSpace.incMem rt.flags
      (itemCharge rt.toPlatform cacheKey buf.length) false).1 = false) {expire i : Nat}
    (htries : Tries (fun i => MemCache.newCacheItem rt.toPlatform cacheKey buf.length expire
      (i != 0)) (evictMemBlock rt buf.length) s i t) :
    t.memTracker.Inv rt.blockKeyHash out ∧ (∀ key, ¬ t.memTracker.Idle rt.blockKeyHash key) ∧
      ∃ needBytes, t.memSpace = { s.memSpace with needBytes } := by
  induction htries with
  | first => exact ⟨hinv, hnothing.1, _, rfl⟩
  | @next i t u v _ hattempt hremedy ih =>
      obtain ⟨hinvt, hidle, needBytes, hmem⟩ := ih
      have hdenied : (t.memSpace.incMem rt.flags (itemCharge rt.toPlatform cacheKey buf.length)
          (i != 0)).1 = false := by
        rw [hmem, incMem_urgent _ hnothing.2]
        exact hrefused
      have hu : u.memTracker = t.memTracker ∧ u.memSpace = { t.memSpace with
          needBytes := i64 (t.memSpace.needBytes +
            itemCharge rt.toPlatform cacheKey buf.length) } := by
        unfold MemCache.newCacheItem Prog.modifyGet at hattempt
        dsimp only at hattempt
        rw [hdenied, incMem_refused hdenied] at hattempt
        cases hattempt
        exact ⟨rfl, rfl⟩
      obtain ⟨hinvv, hidlev, hmemv⟩ := evictMemBlock_nothing (hu.1 ▸ hinvt) (hu.1 ▸ hidle) hremedy
      refine ⟨hinvv, hidlev, i64 (needBytes + itemCharge rt.toPlatform cacheKey buf.length), ?_⟩
      rw [hmemv, hu.2, hmem]

/-- With nothing to give, the first attempt decides. -/
theorem ItemRoom.granted {out : List EvictionHandle} (hinv : u.memTracker.Inv rt.blockKeyHash out)
    (hnothing : NothingToGive rt cacheKey buf u) (h : ItemRoom rt cacheKey buf options u) :
    ItemGranted rt cacheKey buf u := by
  obtain ⟨i, hi, t, htries, hgrant⟩ := h
  refine ⟨by omega, ?_⟩
  by_contra hrefused
  rw [Bool.not_eq_true] at hrefused
  obtain ⟨_, _, needBytes, hmem⟩ := tries_nothing (s := { u with clock := u.clock + 1 }) hinv
    hnothing hrefused htries
  rw [hmem, incMem_urgent _ hnothing.2] at hgrant
  exact Bool.false_ne_true (hrefused.symm.trans hgrant)

end Grant

end StarCache
