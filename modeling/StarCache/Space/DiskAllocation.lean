import StarCache.Space.DirWeights
import Mathlib.Algebra.BigOperators.Group.List.Basic

/-!
# Allocation of disk blocks over whole runs

A directory that the router has disabled is full, so an allocation fails only when
every directory is full. This holds whatever directories the router chooses; its sums stay
in range while the quotas and the number of freed blocks do.
-/

namespace StarCache

open MachineInt

namespace CacheDir

/-- Some block is free. -/
def HasFree (dir : CacheDir) : Prop := ∃ b, dir.freeBit b = some true

theorem Inv.hasFree_iff {dir : CacheDir} (h : dir.Inv) :
    dir.HasFree ↔ dir.freeSpaceList ≠ [] := by
  constructor
  · rintro ⟨b, hb⟩ hempty
    obtain ⟨space, hspace, hbit⟩ := Option.bind_eq_some_iff.mp hb
    have hcount := (h.space _ space hspace).count
    have hpos : 0 < space.freeBits.count true := List.count_pos_iff.mpr (List.mem_of_getElem? hbit)
    have hmem := (h.mem_free (b / blockCountInSpace)).mpr ⟨space, hspace, by omega⟩
    rw [hempty] at hmem
    cases hmem
  · intro hne
    obtain ⟨i, hi⟩ := List.exists_mem_of_ne_nil _ hne
    obtain ⟨space, hspace, hpos⟩ := (h.mem_free i).mp hi
    have hinv := h.space i space hspace
    rw [hinv.count, List.count_pos_iff] at hpos
    obtain ⟨j, hj, hbit⟩ := List.getElem_of_mem hpos
    have hlt : j < blockCountInSpace := by
      have := hinv.length
      omega
    refine ⟨i * blockCountInSpace + j, ?_⟩
    unfold freeBit
    rw [Nat.mul_comm, Nat.mul_add_div (by decide), Nat.div_eq_of_lt hlt, Nat.add_zero, hspace,
      Option.bind_some, Nat.mul_add_mod, Nat.mod_eq_of_lt hlt, List.getElem?_eq_getElem hj, hbit]

/-- The list of non-full spaces agrees with the bitmaps. -/
theorem Inv.count_free {dir : CacheDir} (h : dir.Inv) {i : Nat} {space : BlockSpace}
    (hspace : dir.blockSpaces[i]? = some space) :
    dir.freeSpaceList.count i = if true ∈ space.freeBits then 1 else 0 := by
  have hcount := (h.space i space hspace).count
  have hmem : i ∈ dir.freeSpaceList ↔ true ∈ space.freeBits := by
    rw [h.mem_free]
    constructor
    · rintro ⟨space', hspace', hpos⟩
      rw [hspace] at hspace'
      cases hspace'
      rwa [hcount, List.count_pos_iff] at hpos
    · intro hbit
      exact ⟨space, hspace, hcount ▸ List.count_pos_iff.mpr hbit⟩
  split
  next hbit => exact List.count_eq_one_of_mem h.nodup (hmem.mpr hbit)
  next hbit => exact List.count_eq_zero.mpr fun hi => hbit (hmem.mp hi)

/-- An allocation fails only in a full directory. -/
theorem Inv.allocBlock_none {dir dir' : CacheDir} (h : dir.Inv)
    (hr : dir.allocBlock = some (none, dir')) : ¬ dir.HasFree := by
  rw [h.hasFree_iff, not_not]
  unfold CacheDir.allocBlock at hr
  cases hfree : dir.freeSpaceList with
  | nil => rfl
  | cons spaceIndex rest =>
      simp only [hfree] at hr
      split at hr
      next => cases hr
      next space _ =>
        split at hr
        next => cases hr
        next => cases hr

end CacheDir

namespace CacheDirRouter

/-- The router gives up only when all directories are disabled. -/
theorem nextDirIndex_none {router : CacheDirRouter} (h : router.nextDirIndex.1 = none) {i : Nat}
    {b : Bool} (hb : router.enabled[i]? = some b) : b = false := by
  have henabled := (nextDirIndex_enabled router).1
  unfold nextDirIndex at h henabled
  dsimp only at h henabled
  split at h
  next hpick =>
    obtain ⟨_, hall⟩ := pick_none _ _ _ hpick
    rw [hpick] at henabled
    rw [← henabled] at hb
    unfold enabled at hb
    rw [List.getElem?_map, Option.map_eq_some_iff] at hb
    obtain ⟨dw, hdw, rfl⟩ := hb
    exact hall dw (List.mem_of_getElem? hdw)
  next => cases h

theorem nextDirIndex_overflowed {router : CacheDirRouter} (h : router.overflowed = true) :
    router.nextDirIndex.2.overflowed = true := by
  unfold nextDirIndex
  dsimp only
  rw [h]
  split <;> rfl

theorem addDirWeight_enabled (router : CacheDirRouter) (i : Nat) (w : Int) :
    (router.addDirWeight i w).enabled = router.enabled.set i true := by
  exact modify_enabled router.dirWeights i fun _ => rfl

end CacheDirRouter

namespace DiskSpaceManager

variable {flags : Flags} {mgr mgr' : DiskSpaceManager} {ids : List BlockId} {frees : Nat}

/-- A directory that the router has disabled is full. -/
def Routed (mgr : DiskSpaceManager) : Prop :=
  ∀ (i : Nat) (dir : CacheDir), mgr.cacheDirs[i]? = some dir →
    mgr.router.enabled[i]? = some false → ¬ dir.HasFree

/-- The id names a block of its directory. -/
def InRange (mgr : DiskSpaceManager) (id : BlockId) : Prop :=
  ∃ dir, mgr.cacheDirs[id.dirIndex]? = some dir ∧ id.blockIndex < dir.totalBlockCount

theorem allocRounds_routed : ∀ (rounds : Nat) {mgr : DiskSpaceManager} {r : Option BlockId}
    {mgr' : DiskSpaceManager}, mgr.Inv flags ids → mgr.Routed →
    allocRounds flags rounds mgr = some (r, mgr') →
      mgr'.Routed ∧ (r = none → ∀ dir ∈ mgr.cacheDirs, ¬ dir.HasFree) ∧
        ∀ id, r = some id → (∃ dir ∈ mgr.cacheDirs, dir.HasFree) ∧ mgr.InRange id
  | 0, _, _, _, _, _, hr => by simp [allocRounds] at hr
  | rounds + 1, mgr, r, mgr', h, hrouted, hr => by
      obtain ⟨hsame, henabled⟩ := mgr.router.nextDirIndex_enabled
      unfold allocRounds at hr
      dsimp only at hr
      cases hnext : mgr.router.nextDirIndex.1 with
      | none =>
          simp only [hnext, Option.some.injEq, Prod.mk.injEq] at hr
          obtain ⟨rfl, rfl⟩ := hr
          refine ⟨fun i dir hdir hoff => hrouted i dir hdir (hsame ▸ hoff), fun _ dir hdir => ?_,
            (fun _ h => by cases h)⟩
          obtain ⟨i, hi, hget⟩ := List.getElem_of_mem hdir
          have hlen : i < mgr.router.enabled.length := by
            unfold CacheDirRouter.enabled
            rw [List.length_map, h.router]
            exact hi
          refine hrouted i dir (hget ▸ List.getElem?_eq_getElem hi) ?_
          have hget' := List.getElem?_eq_getElem hlen
          rw [hget', CacheDirRouter.nextDirIndex_none hnext hget']
      | some i =>
          have htrue := henabled i hnext
          simp only [hnext] at hr
          cases hdir : mgr.cacheDirs[i]? with
          | none => simp [hdir] at hr
          | some dir =>
              simp only [hdir] at hr
              obtain ⟨hi, hget⟩ := List.getElem?_eq_some_iff.mp hdir
              have hmem : dir ∈ mgr.cacheDirs := hget ▸ List.getElem_mem hi
              have hinv := h.dir dir hmem
              have hle := h.dirs_le
              cases halloc : dir.allocBlock with
              | none => simp [halloc] at hr
              | some result =>
                  obtain ⟨r', dir'⟩ := result
                  obtain ⟨_, _, hnone, hsome⟩ := hinv.allocBlock halloc
                  cases r' with
                  | none =>
                      -- a full directory is disabled, and the loop goes on
                      simp only [halloc] at hr
                      have heq := hnone rfl
                      subst heq
                      have hset : mgr.cacheDirs.set i dir' = mgr.cacheDirs := by
                        rw [← hget, List.set_getElem_self]
                      rw [hset] at hr
                      have hfull := hinv.allocBlock_none halloc
                      have hinv' : DiskSpaceManager.Inv flags { mgr with
                          router := mgr.router.nextDirIndex.2.disableDir i } ids :=
                        h.withRouter (by simp)
                      have hrouted' : Routed { mgr with
                          router := mgr.router.nextDirIndex.2.disableDir i } := by
                        intro j d hd hoff
                        dsimp only at hd hoff
                        rw [CacheDirRouter.disableDir_enabled, hsame, List.getElem?_set] at hoff
                        by_cases hij : i = j
                        · subst hij
                          rw [hdir] at hd
                          cases hd
                          exact hfull
                        · rw [if_neg hij] at hoff
                          exact hrouted j d hd hoff
                      have hrest := allocRounds_routed rounds hinv' hrouted' hr
                      exact hrest
                  | some b =>
                      simp only [halloc, Option.some.injEq, Prod.mk.injEq] at hr
                      obtain ⟨rfl, rfl⟩ := hr
                      obtain ⟨hb, hfree, _⟩ := hsome b rfl
                      refine ⟨fun j d hd hoff => ?_, (fun h => by cases h), ?_⟩
                      · -- the chosen directory stays enabled
                        dsimp only at hd hoff
                        rw [hsame] at hoff
                        by_cases hij : i = j
                        · subst hij
                          rw [htrue] at hoff
                          cases hoff
                        · rw [List.getElem?_set, if_neg hij] at hd
                          exact hrouted j d hd hoff
                      · rintro id ⟨⟩
                        refine ⟨⟨dir, hmem, b, hfree⟩, dir, ?_, ?_⟩
                        · dsimp only
                          rw [Nat.mod_eq_of_lt (by omega)]
                          exact hdir
                        · dsimp only
                          rw [u32_of_lt (Nat.lt_trans hb hinv.total_lt)]
                          exact hb

theorem Routed.freeBlock {id : BlockId} (hrouted : mgr.Routed)
    (hr : DiskSpaceManager.freeBlock flags id mgr = some ((), mgr')) : mgr'.Routed := by
  unfold DiskSpaceManager.freeBlock at hr
  cases hdir : mgr.cacheDirs[id.dirIndex]? with
  | none => simp [hdir] at hr
  | some dir =>
      simp only [hdir] at hr
      cases hfree : dir.freeBlock id.blockIndex with
      | none => simp [hfree] at hr
      | some result =>
          simp only [hfree, Option.some.injEq, Prod.mk.injEq, true_and] at hr
          subst hr
          intro j d hd hoff
          dsimp only at hd hoff
          rw [CacheDirRouter.addDirWeight_enabled, List.getElem?_set] at hoff
          by_cases hij : id.dirIndex = j
          · -- its directory is enabled again
            rw [if_pos hij] at hoff
            split at hoff <;> cases hoff
          · rw [if_neg hij] at hoff
            rw [List.getElem?_set, if_neg hij] at hd
            exact hrouted j d hd hoff

/-! ## Sums of the router -/

section Bounded

variable {n : Nat} {quotas gained : Int}

open CacheDirRouter (Bounded)

theorem allocRounds_bounded (hgained : 0 ≤ gained) (hfits : (n + 1) * quotas + gained < 2 ^ 63) :
    ∀ (rounds : Nat) {mgr mgr' : DiskSpaceManager} {r : Option BlockId},
      Bounded n quotas gained mgr.router → allocRounds flags rounds mgr = some (r, mgr') →
        Bounded n quotas gained mgr'.router
  | 0, _, _, _, _, hr => by simp [allocRounds] at hr
  | rounds + 1, mgr, mgr', r, h, hr => by
      have hnext' := h.nextDirIndex hgained hfits
      unfold allocRounds at hr
      dsimp only at hr
      cases hnext : mgr.router.nextDirIndex.1 with
      | none =>
          simp only [hnext, Option.some.injEq, Prod.mk.injEq] at hr
          obtain ⟨-, rfl⟩ := hr
          exact hnext'
      | some i =>
          have hi : i < n := by
            obtain ⟨hlt, _⟩ :=
              List.getElem?_eq_some_iff.mp (mgr.router.nextDirIndex_enabled.2 i hnext)
            unfold CacheDirRouter.enabled at hlt
            rw [List.length_map, h.length] at hlt
            exact hlt
          simp only [hnext] at hr
          split at hr
          next => cases hr
          next =>
            split at hr
            next => cases hr
            next =>
              cases hr
              exact hnext'
            next => exact allocRounds_bounded hgained hfits rounds (hnext'.disableDir hi) hr

theorem freeBlock_bounded {id : BlockId} (hlength : mgr.cacheDirs.length = n)
    (h : Bounded n quotas gained mgr.router) (hgained : 0 ≤ gained) (hquotas : 0 ≤ quotas)
    (hfits : (n + 1) * quotas + (gained + flags.blockSize) < 2 ^ 63)
    (hr : DiskSpaceManager.freeBlock flags id mgr = some ((), mgr')) :
    Bounded n quotas (gained + flags.blockSize) mgr'.router := by
  have hscaled : 0 ≤ ((n : Int) + 1) * quotas := mul_nonneg (by omega) hquotas
  have hsize : i64 flags.blockSize = flags.blockSize := i64_eq (by omega) (by omega)
  unfold DiskSpaceManager.freeBlock at hr
  cases hdir : mgr.cacheDirs[id.dirIndex]? with
  | none => simp [hdir] at hr
  | some dir =>
      obtain ⟨hi, _⟩ := List.getElem?_eq_some_iff.mp hdir
      simp only [hdir] at hr
      cases hfree : dir.freeBlock id.blockIndex with
      | none => simp [hfree] at hr
      | some result =>
          simp only [hfree, hsize, Option.some.injEq, Prod.mk.injEq, true_and] at hr
          subst hr
          exact h.addDirWeight (hlength ▸ hi) (by omega) hgained hfits

end Bounded

/-- An overflow is never forgotten. -/
theorem allocRounds_overflowed : ∀ (rounds : Nat) {mgr mgr' : DiskSpaceManager}
    {r : Option BlockId}, mgr.router.nextDirIndex.2.overflowed = true →
      allocRounds flags rounds mgr = some (r, mgr') → mgr'.router.overflowed = true
  | 0, _, _, _, _, hr => by simp [allocRounds] at hr
  | rounds + 1, mgr, mgr', r, h, hr => by
      unfold allocRounds at hr
      dsimp only at hr
      split at hr
      next =>
        cases hr
        exact h
      next =>
        split at hr
        next => cases hr
        next =>
          split at hr
          next => cases hr
          next =>
            cases hr
            exact h
          next => exact allocRounds_overflowed rounds (CacheDirRouter.nextDirIndex_overflowed h) hr

/-- The quotas and the number of freed blocks are small enough for the sums of the router. -/
def SumsFit (flags : Flags) (dirs : List DirSpace) (frees : Nat) : Prop :=
  (dirs.length + 1) * (dirs.map (·.quotaBytes)).sum + flags.blockSize * frees < 2 ^ 63

theorem SumsFit.mono {dirs : List DirSpace} {frees frees' : Nat} (h : SumsFit flags dirs frees')
    (hle : frees ≤ frees') : SumsFit flags dirs frees :=
  (Nat.add_le_add_left (Nat.mul_le_mul_left _ hle) _).trans_lt h

theorem foldl_addCacheDir_router (dirs : List DirSpace) {mgr : DiskSpaceManager}
    (h : mgr.router = CacheDirRouter.added mgr.cacheDirs) :
    (dirs.foldl (addCacheDir flags) mgr).router =
        CacheDirRouter.added (dirs.foldl (addCacheDir flags) mgr).cacheDirs ∧
      (dirs.foldl (addCacheDir flags) mgr).cacheDirs.map (·.quotaBytes) =
        mgr.cacheDirs.map (·.quotaBytes) ++ dirs.map (·.quotaBytes) := by
  induction dirs generalizing mgr with
  | nil => simp [h]
  | cons dir rest ih =>
      have hstep : (mgr.addCacheDir flags dir).router =
          CacheDirRouter.added (mgr.addCacheDir flags dir).cacheDirs := by
        unfold addCacheDir CacheDirRouter.added
        dsimp only
        rw [List.foldl_append, h]
        rfl
      obtain ⟨hrouter, hquotas⟩ := ih hstep
      refine ⟨hrouter, ?_⟩
      rw [List.foldl_cons, hquotas]
      unfold addCacheDir CacheDir.create
      simp

/-- The router of fresh directories. -/
theorem init_bounded {dirs : List DirSpace} (hfits : SumsFit flags dirs 0) :
    CacheDirRouter.Bounded dirs.length ((dirs.map (·.quotaBytes)).sum : Nat)
      (flags.blockSize * 0 : Nat) (dirs.foldl (addCacheDir flags) {}).router := by
  obtain ⟨hrouter, hquotas⟩ := @foldl_addCacheDir_router flags dirs {} rfl
  have hlength : (dirs.foldl (addCacheDir flags) {}).cacheDirs.length = dirs.length := by
    have := congrArg List.length hquotas
    simpa using this
  have htotal : CacheDirRouter.total (dirs.foldl (addCacheDir flags) {}).cacheDirs =
      ((dirs.map (·.quotaBytes)).sum : Nat) := by
    have hsum := congrArg List.sum hquotas
    rw [List.map_nil, List.nil_append] at hsum
    unfold CacheDirRouter.total
    rw [← hsum, Nat.cast_list_sum, List.map_map]
    rfl
  rw [Nat.mul_zero, Nat.cast_zero, hrouter, ← hlength, ← htotal]
  apply CacheDirRouter.added_bounded
  rw [htotal]
  unfold SumsFit at hfits
  rw [Nat.add_mul] at hfits
  omega

/-! ## Runs -/

/-- Runs of the manager of the directories `dirs`. `ids` are the blocks that have been handed
out and not freed; only these are freed. `frees` is the number of freed blocks. -/
inductive Run (flags : Flags) (dirs : List DirSpace) :
    DiskSpaceManager → List BlockId → Nat → Prop
  | init : Run flags dirs (dirs.foldl (addCacheDir flags) {}) [] 0
  | alloc {mgr mgr' : DiskSpaceManager} {ids : List BlockId} {frees : Nat} {r : Option BlockId} :
      Run flags dirs mgr ids frees → allocBlock flags mgr = some (r, mgr') →
        Run flags dirs mgr' (r.toList ++ ids) frees
  | free {mgr mgr' : DiskSpaceManager} {ids : List BlockId} {frees : Nat} {id : BlockId} :
      Run flags dirs mgr ids frees → id ∈ ids → freeBlock flags id mgr = some ((), mgr') →
        Run flags dirs mgr' (ids.erase id) (frees + 1)

/-- What `add_cache_dir` has been told of each directory. -/
def Configured (flags : Flags) (dirs : List DirSpace) (mgr : DiskSpaceManager) : Prop :=
  mgr.cacheDirs.map (·.totalBlockCount) =
    dirs.map fun dir => u32 (dir.quotaBytes / flags.blockSize : Nat)

theorem SameLayout.configured {dirs : List DirSpace} (h : SameLayout mgr mgr')
    (hmgr : mgr.Configured flags dirs) : mgr'.Configured flags dirs := by
  have hlayout := congrArg (List.map Prod.snd) h.dirs
  rw [List.map_map, List.map_map] at hlayout
  unfold Configured at hmgr ⊢
  exact hlayout.trans hmgr

theorem foldl_addCacheDir : ∀ (dirs done : List DirSpace) {mgr : DiskSpaceManager},
    mgr.Inv flags [] → mgr.Routed → mgr.Configured flags done →
    done.length + dirs.length ≤ 256 →
      (dirs.foldl (addCacheDir flags) mgr).Inv flags [] ∧
        (dirs.foldl (addCacheDir flags) mgr).Routed ∧
        (dirs.foldl (addCacheDir flags) mgr).Configured flags (done ++ dirs)
  | [], done, mgr, h, hrouted, hconf, _ => by
      rw [List.append_nil]
      exact ⟨h, hrouted, hconf⟩
  | dir :: rest, done, mgr, h, hrouted, hconf, hle => by
      rw [List.length_cons] at hle
      have hlength : mgr.cacheDirs.length = done.length := by
        have := congrArg List.length hconf
        simpa using this
      rw [List.append_cons]
      refine foldl_addCacheDir rest (done ++ [dir]) (h.addCacheDir dir (by omega)) ?_ ?_ (by
        rw [List.length_append, List.length_singleton]
        omega)
      · -- a new directory is enabled
        intro i d hd hoff
        unfold addCacheDir at hd hoff
        dsimp only at hd hoff
        unfold CacheDirRouter.addDir CacheDirRouter.enabled at hoff
        dsimp only at hoff
        rw [List.map_append, List.getElem?_append] at hoff
        rw [List.getElem?_append] at hd
        rw [List.length_map, h.router] at hoff
        split at hoff
        next hlt =>
          rw [if_pos hlt] at hd
          exact hrouted i d hd hoff
        next =>
          have := List.mem_of_getElem? hoff
          simp at this
      · unfold Configured addCacheDir CacheDir.create at *
        dsimp only
        rw [List.map_append, List.map_append, hconf]
        rfl

theorem Run.inv {dirs : List DirSpace} (hdirs : dirs.length ≤ 256) (h : Run flags dirs mgr ids frees) :
    mgr.Inv flags ids ∧ mgr.Routed ∧ mgr.Configured flags dirs := by
  induction h with
  | init =>
      refine foldl_addCacheDir dirs [] inv_empty (fun i dir hdir _ => ?_) rfl (by simpa using hdirs)
      cases hdir
  | @alloc mgr mgr' ids frees r _ hr ih =>
      obtain ⟨hinv, hrouted, hconf⟩ := ih
      obtain ⟨hsame, hnone, hsome⟩ := hinv.allocBlock hr
      refine ⟨?_, (allocRounds_routed _ hinv hrouted hr).1, hsame.configured hconf⟩
      cases r with
      | none => exact hnone rfl
      | some id => exact (hsome id rfl).2
  | @free mgr mgr' ids frees id _ hid hr ih =>
      obtain ⟨hinv, hrouted, hconf⟩ := ih
      obtain ⟨hsame, hinv'⟩ := (hinv.perm (List.perm_cons_erase hid)).freeBlock hr
      exact ⟨hinv', hrouted.freeBlock hr, hsame.configured hconf⟩

/-- No sum overflows before the bound is reached. -/
theorem Run.bounded {dirs : List DirSpace} (hdirs : dirs.length ≤ 256)
    (h : Run flags dirs mgr ids frees) (hfits : SumsFit flags dirs frees) :
    CacheDirRouter.Bounded dirs.length ((dirs.map (·.quotaBytes)).sum : Nat)
      (flags.blockSize * frees : Nat) mgr.router := by
  induction h with
  | init => exact init_bounded hfits
  | @alloc mgr mgr' ids frees r _ hr ih =>
      refine allocRounds_bounded (Int.natCast_nonneg _) ?_ _ (ih hfits) hr
      unfold SumsFit at hfits
      exact_mod_cast hfits
  | @free mgr mgr' ids frees id hrun hid hr ih =>
      have hbounded := ih (hfits.mono (Nat.le_succ frees))
      have hlength : mgr.cacheDirs.length = dirs.length := by
        rw [← (hrun.inv hdirs).1.router, hbounded.length]
      have hgain : ((flags.blockSize * (frees + 1) : Nat) : Int) =
          (flags.blockSize * frees : Nat) + flags.blockSize := by
        push_cast
        ring
      rw [hgain]
      refine freeBlock_bounded hlength hbounded (Int.natCast_nonneg _) (Int.natCast_nonneg _) ?_ hr
      rw [← hgain]
      unfold SumsFit at hfits
      exact_mod_cast hfits

/-- The list of non-full spaces, the bitmaps and the counts of a directory agree. -/
structure DirConsistent (dir : CacheDir) : Prop where
  listed : ∀ i space, dir.blockSpaces[i]? = some space →
    dir.freeSpaceList.count i = (if true ∈ space.freeBits then 1 else 0) ∧
      space.freeCount = space.freeBits.count true
  inRange : ∀ i ∈ dir.freeSpaceList, i < dir.blockSpaces.length

/-- Allocation ends, succeeds exactly when some directory has a free block, and hands out a
block that is in no other hands and within the quota of its directory; the used bytes count
the blocks, and a disabled directory is full. No sum of the router overflows before the quotas
and the number of freed blocks reach the bound. -/
theorem alloc_exact {dirs : List DirSpace} (hdirs : dirs.length ≤ 256)
    (hcount : ∀ dir ∈ dirs, dir.quotaBytes / flags.blockSize < 4294967296)
    (h : Run flags dirs mgr ids frees) :
    (∃ r mgr', allocBlock flags mgr = some (r, mgr') ∧
      (r.isSome = true ↔ ∃ dir ∈ mgr.cacheDirs, dir.HasFree) ∧
      ∀ id, r = some id → id ∉ ids ∧
        ∃ dir, dirs[id.dirIndex]? = some dir ∧
          id.blockIndex < dir.quotaBytes / flags.blockSize) ∧
      (∀ id, mgr.Allocated id ↔ id ∈ ids) ∧ ids.Nodup ∧
      (∀ id ∈ ids, freeBlock flags id mgr ≠ none) ∧
      mgr.usedBytes = u64 (flags.blockSize * ids.length : Nat) ∧
      (∀ dir ∈ mgr.cacheDirs, DirConsistent dir) ∧ mgr.Routed ∧
      (SumsFit flags dirs frees → mgr.router.overflowed = false ∧
        ∀ r mgr', allocBlock flags mgr = some (r, mgr') → mgr'.router.overflowed = false) := by
  obtain ⟨hinv, hrouted, hconf⟩ := h.inv hdirs
  refine ⟨?_, hinv.allocated, hinv.nodup, fun id hid => hinv.freeBlock_defined hid, ?_,
    fun dir hdir => ⟨fun i space hspace => ?_, fun i hi => ?_⟩, hrouted,
    fun hfits => ⟨(h.bounded hdirs hfits).exact, fun r mgr' hr =>
      ((h.alloc hr).bounded hdirs hfits).exact⟩⟩
  · cases hr : allocBlock flags mgr with
    | none => exact absurd hr hinv.allocBlock_defined
    | some result =>
        obtain ⟨r, mgr'⟩ := result
        obtain ⟨_, hnone, hsome⟩ := allocRounds_routed _ hinv hrouted hr
        refine ⟨r, mgr', rfl, ?_, fun id hid => ⟨((hinv.allocBlock hr).2.2 id hid).1, ?_⟩⟩
        · cases r with
          | none =>
              refine ⟨nofun, fun ⟨dir, hdir, hfree⟩ => ?_⟩
              exact absurd hfree (hnone rfl dir hdir)
          | some id => exact ⟨fun _ => (hsome id rfl).1, fun _ => rfl⟩
        · obtain ⟨dir, hdir, hlt⟩ := (hsome id hid).2
          have hget := congrArg (·[id.dirIndex]?) hconf
          simp only [List.getElem?_map, hdir, Option.map_some] at hget
          obtain ⟨dir', hdir', htotal⟩ := Option.map_eq_some_iff.mp hget.symm
          refine ⟨dir', hdir', ?_⟩
          rw [← htotal, u32_of_lt (hcount dir' (List.mem_of_getElem? hdir'))] at hlt
          exact hlt
  · rw [hinv.used, u64_natCast]
  · exact ⟨(hinv.dir dir hdir).count_free hspace, ((hinv.dir dir hdir).space i space hspace).count⟩
  · obtain ⟨space, hspace, _⟩ := ((hinv.dir dir hdir).mem_free i).mp hi
    exact (List.getElem?_eq_some_iff.mp hspace).1

/-- A directory of one block, and one that is too small for a block. -/
def twoDirs : List DirSpace := [⟨"/a", 1048576⟩, ⟨"/b", 1048575⟩]

/-- The first allocation from the two succeeds. -/
theorem alloc_exact_first :
    ∃ mgr, Run .default twoDirs mgr [] 0 ∧
      ∃ id mgr', allocBlock .default mgr = some (some id, mgr') ∧
        (∃ dir, twoDirs[id.dirIndex]? = some dir ∧
          id.blockIndex < dir.quotaBytes / Flags.default.blockSize) ∧
        mgr'.router.overflowed = false := by
  refine ⟨_, .init, ?_⟩
  obtain ⟨⟨r, mgr', hr, hiff, hid⟩, _, _, _, _, _, _, hexact⟩ :=
    @alloc_exact .default _ [] 0 twoDirs (by decide) (by decide) .init
  obtain ⟨id, rfl⟩ := Option.isSome_iff_exists.mp
    (hiff.mpr ⟨_, List.mem_cons_self, 0, by decide +kernel⟩)
  exact ⟨id, mgr', hr, (hid id rfl).2, (hexact (by unfold SumsFit; decide)).2 _ _ hr⟩

/-- Blocks of 2 GiB. -/
def largeBlocks : Flags :=
  { Flags.default with blockSize := 2 ^ 31, blockSize_pos := by decide }

/-- A directory of `2 ^ 31` blocks. -/
def largeDir : List DirSpace := [⟨"/a", 2 ^ 62⟩]

/-- The first allocation from the large directory raises its current weight to `2 ^ 63`. -/
theorem alloc_overflows :
    (∀ dir ∈ largeDir, dir.quotaBytes / largeBlocks.blockSize < 4294967296) ∧
      ∃ mgr r mgr', Run largeBlocks largeDir mgr [] 0 ∧
        allocBlock largeBlocks mgr = some (r, mgr') ∧ mgr'.router.overflowed = true := by
  refine ⟨by decide, largeDir.foldl (addCacheDir largeBlocks) {}, ?_⟩
  have hinv := ((@Run.init largeBlocks largeDir).inv (by decide)).1
  cases hr : allocBlock largeBlocks (largeDir.foldl (addCacheDir largeBlocks) {}) with
  | none => exact absurd hr hinv.allocBlock_defined
  | some result =>
      refine ⟨result.1, result.2, .init, rfl, allocRounds_overflowed _ ?_ hr⟩
      have hrouter : (largeDir.foldl (addCacheDir largeBlocks) {}).router =
          ⟨[⟨0, i64 (2 ^ 62 : Nat), i64 (2 ^ 62 : Nat), true⟩], false⟩ := rfl
      rw [hrouter]
      decide +kernel

end DiskSpaceManager

end StarCache
