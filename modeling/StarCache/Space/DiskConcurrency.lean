import StarCache.Foundation.Transition
import StarCache.Space.DiskAllocation

/-!
# Concurrent allocation of disk blocks

Any number of `alloc_block` and `free_block` calls are in flight; one step is one
call made under a mutex of the router or of a directory. The atomic counter of used
bytes changes together with the bitmap before it.

A directory that was full is disabled in a later step, and a block freed in between
leaves a free block in a disabled directory. If no disabling comes that late, a
directory with a free block is enabled as soon as no call is in flight, whatever directories
the router has chosen.
-/

namespace StarCache

open MachineInt Function

namespace DiskSpaceManager

/-- The next mutex-protected call of an `alloc_block` or `free_block` in flight. -/
inductive Call
  /-- `next_dir_index`. -/
  | alloc
  /-- `CacheDir::alloc_block`. -/
  | chosen (dirIndex : Nat)
  /-- `disable_dir`. -/
  | failed (dirIndex : Nat)
  /-- `CacheDir::free_block`. -/
  | free (blockId : BlockId)
  /-- `add_dir_weight`. -/
  | freed (blockId : BlockId)

/-- The directory that a call has to do with. -/
def Call.dirIndex : Call → Option Nat
  | .alloc => none
  | .chosen dirIndex => some dirIndex
  | .failed dirIndex => some dirIndex
  | .free blockId => some blockId.dirIndex
  | .freed blockId => some blockId.dirIndex

structure Shared where
  mgr : DiskSpaceManager
  /-- The blocks that are allocated. -/
  held : List BlockId
  /-- The calls in flight, by thread. -/
  calls : Nat → Option Call
  /-- How many calls have added the weight of a freed block. -/
  frees : Nat

inductive Act
  | allocBlock (thread : Nat)
  | freeBlock (thread : Nat) (blockId : BlockId)
  | nextDirIndex (thread : Nat)
  | dirAllocBlock (thread : Nat)
  | disableDir (thread dirIndex : Nat)
  | dirFreeBlock (thread : Nat)
  | addDirWeight (thread : Nat)

variable (flags : Flags)

/-- A caller frees a block that is allocated, and frees it once. -/
inductive Step : Act → Shared → Shared → Prop
  | allocBlock {s : Shared} {t : Nat} : s.calls t = none →
      Step (.allocBlock t) s { s with calls := update s.calls t (some .alloc) }
  | freeBlock {s : Shared} {t : Nat} {id : BlockId} : s.calls t = none → id ∈ s.held →
      (∀ t', s.calls t' ≠ some (.free id)) →
      Step (.freeBlock t id) s { s with calls := update s.calls t (some (.free id)) }
  | allDisabled {s : Shared} {t : Nat} : s.calls t = some .alloc →
      s.mgr.router.nextDirIndex.1 = none →
      Step (.nextDirIndex t) s { s with
        mgr := { s.mgr with router := s.mgr.router.nextDirIndex.2 }
        calls := update s.calls t none }
  | nextDirIndex {s : Shared} {t dirIndex : Nat} : s.calls t = some .alloc →
      s.mgr.router.nextDirIndex.1 = some dirIndex →
      Step (.nextDirIndex t) s { s with
        mgr := { s.mgr with router := s.mgr.router.nextDirIndex.2 }
        calls := update s.calls t (some (.chosen dirIndex)) }
  | dirAllocBlock {s : Shared} {t dirIndex blockIndex : Nat} {dir dir' : CacheDir} :
      s.calls t = some (.chosen dirIndex) → s.mgr.cacheDirs[dirIndex]? = some dir →
      dir.allocBlock = some (some blockIndex, dir') →
      Step (.dirAllocBlock t) s { s with
        mgr := { s.mgr with
          cacheDirs := s.mgr.cacheDirs.set dirIndex dir'
          usedBytes := u64 (s.mgr.usedBytes + flags.blockSize) }
        held := ⟨dirIndex % 256, u32 blockIndex⟩ :: s.held
        calls := update s.calls t none }
  | dirFull {s : Shared} {t dirIndex : Nat} {dir dir' : CacheDir} :
      s.calls t = some (.chosen dirIndex) → s.mgr.cacheDirs[dirIndex]? = some dir →
      dir.allocBlock = some (none, dir') →
      Step (.dirAllocBlock t) s { s with
        mgr := { s.mgr with cacheDirs := s.mgr.cacheDirs.set dirIndex dir' }
        calls := update s.calls t (some (.failed dirIndex)) }
  | disableDir {s : Shared} {t dirIndex : Nat} : s.calls t = some (.failed dirIndex) →
      Step (.disableDir t dirIndex) s { s with
        mgr := { s.mgr with router := s.mgr.router.disableDir dirIndex }
        calls := update s.calls t (some .alloc) }
  | dirFreeBlock {s : Shared} {t : Nat} {id : BlockId} {dir dir' : CacheDir} :
      s.calls t = some (.free id) → s.mgr.cacheDirs[id.dirIndex]? = some dir →
      dir.freeBlock id.blockIndex = some ((), dir') →
      Step (.dirFreeBlock t) s { s with
        mgr := { s.mgr with
          cacheDirs := s.mgr.cacheDirs.set id.dirIndex dir'
          usedBytes := u64 (s.mgr.usedBytes - flags.blockSize) }
        held := s.held.erase id
        calls := update s.calls t (some (.freed id)) }
  | addDirWeight {s : Shared} {t : Nat} {id : BlockId} : s.calls t = some (.freed id) →
      Step (.addDirWeight t) s { s with
        mgr := { s.mgr with router := s.mgr.router.addDirWeight id.dirIndex (i64 flags.blockSize) }
        calls := update s.calls t none
        frees := s.frees + 1 }

/-- The manager of the directories `dirs`, with no call in flight. -/
def Shared.init (dirs : List DirSpace) : Shared where
  mgr := dirs.foldl (addCacheDir flags) {}
  held := []
  calls := fun _ => none
  frees := 0

variable {flags}

namespace Shared

def Idle (s : Shared) : Prop := ∀ t, s.calls t = none

/-- A call that has freed a block of the directory is about to enable it. -/
def Reviving (s : Shared) (dirIndex : Nat) : Prop :=
  ∃ t id, s.calls t = some (.freed id) ∧ id.dirIndex = dirIndex

/-- The directory is full, or a call is about to enable it: it may be disabled. -/
def MayDisable (s : Shared) (dirIndex : Nat) : Prop :=
  (∀ dir, s.mgr.cacheDirs[dirIndex]? = some dir → ¬ dir.HasFree) ∨ s.Reviving dirIndex

/-- A step that does not disable a directory too late. -/
def Timely (s : Shared) : Act → Prop
  | .disableDir _ dirIndex => s.MayDisable dirIndex
  | _ => True

/-- A directory with a free block is enabled, or about to be. -/
def Served (s : Shared) : Prop :=
  ∀ (i : Nat) (dir : CacheDir), s.mgr.cacheDirs[i]? = some dir → dir.HasFree →
    s.mgr.router.enabled[i]? = some true ∨ s.Reviving i

/-- The bitmaps hold exactly the allocated blocks, and no block is being freed twice. -/
structure Inv (flags : Flags) (s : Shared) : Prop where
  mgr : s.mgr.Inv flags s.held
  freeing : ∀ t id, s.calls t = some (.free id) → id ∈ s.held
  once : ∀ t t' id, s.calls t = some (.free id) → s.calls t' = some (.free id) → t = t'
  dir : ∀ t call i, s.calls t = some call → call.dirIndex = some i → i < s.mgr.cacheDirs.length

/-- A call of another thread, or the new one of this thread. -/
theorem of_update {calls : Nat → Option Call} {t t' : Nat} {c : Option Call} {call : Call}
    (h : update calls t c t' = some call) (hne : c ≠ some call) : calls t' = some call := by
  by_cases ht : t' = t
  · subst ht
    rw [update_self] at h
    exact absurd h hne
  · rwa [update_of_ne ht] at h

variable {s s' : Shared} {a : Act} {t : Nat}

theorem Inv.setCall (h : Inv flags s) (t : Nat) {c : Option Call}
    (hfree : ∀ id, c ≠ some (.free id))
    (hdir : ∀ call i, c = some call → call.dirIndex = some i → i < s.mgr.cacheDirs.length) :
    Inv flags { s with calls := update s.calls t c } := by
  refine ⟨h.mgr, ?_, ?_, ?_⟩
  · intro t' id ht'
    exact h.freeing t' id (of_update ht' (hfree id))
  · intro t₁ t₂ id h₁ h₂
    exact h.once t₁ t₂ id (of_update h₁ (hfree id)) (of_update h₂ (hfree id))
  · intro t' call i ht' hi
    by_cases hc : c = some call
    · exact hdir call i hc hi
    · exact h.dir t' call i (of_update ht' hc) hi

theorem Inv.withMgr (h : Inv flags s) {mgr : DiskSpaceManager} (hmgr : mgr.Inv flags s.held)
    (hlen : mgr.cacheDirs.length = s.mgr.cacheDirs.length) : Inv flags { s with mgr } :=
  ⟨hmgr, h.freeing, h.once, fun t call i ht hi => by
    dsimp only
    rw [hlen]
    exact h.dir t call i ht hi⟩

theorem Inv.withRouter (h : Inv flags s) {router : CacheDirRouter}
    (hlen : router.dirWeights.length = s.mgr.router.dirWeights.length) :
    Inv flags { s with mgr := { s.mgr with router } } :=
  h.withMgr (h.mgr.withRouter hlen) rfl

theorem Inv.step (h : Inv flags s) (hstep : Step flags a s s') : Inv flags s' := by
  cases hstep with
  | @allocBlock _ t hidle =>
      exact h.setCall t (fun _ h => by cases h) (by rintro _ _ ⟨⟩ ⟨⟩)
  | @freeBlock _ t id hidle hid hother =>
      refine ⟨h.mgr, ?_, ?_, ?_⟩
      · intro t' id' ht'
        by_cases heq : id' = id
        · rwa [heq]
        · exact h.freeing t' id' (of_update ht' (by simpa using Ne.symm heq))
      · intro t₁ t₂ id' h₁ h₂
        by_cases heq : id' = id
        · -- no other call was freeing the block
          subst heq
          have hself : ∀ t', update s.calls t (some (.free id')) t' = some (.free id') → t' = t := by
            intro t' ht'
            by_contra hne
            rw [update_of_ne hne] at ht'
            exact hother t' ht'
          rw [hself t₁ h₁, hself t₂ h₂]
        · exact h.once t₁ t₂ id' (of_update h₁ (by simpa using Ne.symm heq))
            (of_update h₂ (by simpa using Ne.symm heq))
      · intro t' call i ht' hi
        by_cases hc : some (Call.free id) = some call
        · cases hc
          cases hi
          obtain ⟨dir, hdir, _⟩ := (h.mgr.allocated id).mpr hid
          exact (List.getElem?_eq_some_iff.mp hdir).1
        · exact h.dir t' call i (of_update ht' hc) hi
  | @allDisabled _ t hcall hnext =>
      exact (h.withRouter (by simp)).setCall t (fun _ h => by cases h) (by rintro _ _ ⟨⟩)
  | @nextDirIndex _ t dirIndex hcall hnext =>
      apply (h.withRouter (by simp)).setCall t (fun _ h => by cases h)
      rintro call i ⟨⟩ ⟨⟩
      obtain ⟨hlt, _⟩ := List.getElem?_eq_some_iff.mp
        ((CacheDirRouter.nextDirIndex_enabled _).2 dirIndex hnext)
      dsimp only
      rw [← h.mgr.router]
      simpa [CacheDirRouter.enabled] using hlt
  | @dirAllocBlock _ t dirIndex blockIndex dir dir' hcall hdir halloc =>
      obtain ⟨_, hinv⟩ := h.mgr.allocDir hdir halloc
      have hgrown : Inv flags { s with held := ⟨dirIndex % 256, u32 blockIndex⟩ :: s.held
                                       mgr := { s.mgr with
                                         cacheDirs := s.mgr.cacheDirs.set dirIndex dir'
                                         usedBytes := u64 (s.mgr.usedBytes + flags.blockSize) } } :=
        ⟨hinv, fun t' id ht' => List.mem_cons_of_mem _ (h.freeing t' id ht'), h.once,
          fun t' call i ht' hi => by
            dsimp only
            rw [List.length_set]
            exact h.dir t' call i ht' hi⟩
      exact hgrown.setCall t (fun _ h => by cases h) (by rintro _ _ ⟨⟩)
  | @dirFull _ t dirIndex dir dir' hcall hdir halloc =>
      obtain ⟨hi, hget⟩ := List.getElem?_eq_some_iff.mp hdir
      have hsame := ((h.mgr.dir dir (List.mem_of_getElem? hdir)).allocBlock halloc).2.2.1 rfl
      subst hsame
      have hset : s.mgr.cacheDirs.set dirIndex dir' = s.mgr.cacheDirs := by
        rw [← hget, List.set_getElem_self]
      rw [hset]
      apply h.setCall t (fun _ h => by cases h)
      rintro call i ⟨⟩ ⟨⟩
      exact hi
  | @disableDir _ t dirIndex hcall =>
      exact (h.withRouter (by simp)).setCall t (fun _ h => by cases h) (by rintro _ _ ⟨⟩ ⟨⟩)
  | @dirFreeBlock _ t id dir dir' hcall hdir hfree =>
      have hheld := h.freeing t id hcall
      obtain ⟨_, hinv⟩ := (h.mgr.perm (List.perm_cons_erase hheld)).freeDir hdir hfree
      refine ⟨hinv, ?_, ?_, ?_⟩
      · intro t' id' ht'
        have hold := of_update ht' (by simp)
        have hne : id' ≠ id := by
          rintro rfl
          have := h.once t' t id' hold hcall
          subst this
          simp at ht'
        exact (List.mem_erase_of_ne hne).mpr (h.freeing t' id' hold)
      · intro t₁ t₂ id' h₁ h₂
        exact h.once t₁ t₂ id' (of_update h₁ (by simp)) (of_update h₂ (by simp))
      · intro t' call i ht' hi
        dsimp only
        rw [List.length_set]
        by_cases hc : some (Call.freed id) = some call
        · cases hc
          exact h.dir t (.free id) i hcall hi
        · exact h.dir t' call i (of_update ht' hc) hi
  | @addDirWeight _ t id hcall =>
      have hrouter : Inv flags { s with mgr := { s.mgr with
          router := s.mgr.router.addDirWeight id.dirIndex (i64 flags.blockSize) } } :=
        h.withRouter (by simp [CacheDirRouter.addDirWeight])
      have hdone := hrouter.setCall t (c := none) (fun _ h => by cases h) (by rintro _ _ ⟨⟩)
      exact ⟨hdone.mgr, hdone.freeing, hdone.once, hdone.dir⟩

theorem Reviving.setCall {i : Nat} (h : s.Reviving i) {c : Option Call}
    (hcall : ∀ id, s.calls t ≠ some (.freed id)) (hs' : s'.calls = update s.calls t c) :
    s'.Reviving i := by
  obtain ⟨t', id, ht', hid⟩ := h
  have hne : t' ≠ t := by
    rintro rfl
    exact hcall id ht'
  exact ⟨t', id, by rw [hs', update_of_ne hne, ht'], hid⟩

/-- No more free blocks, and as many enabled directories. -/
theorem Served.of_le (h : s.Served)
    (hdir : ∀ (i : Nat) (dir' : CacheDir), s'.mgr.cacheDirs[i]? = some dir' → dir'.HasFree →
      ∃ dir, s.mgr.cacheDirs[i]? = some dir ∧ dir.HasFree)
    (henabled : ∀ i : Nat, s.mgr.router.enabled[i]? = some true →
      s'.mgr.router.enabled[i]? = some true)
    (hreviving : ∀ i, s.Reviving i → s'.Reviving i) : s'.Served := by
  intro i dir' hi hfree
  obtain ⟨dir, hdir, hfree⟩ := hdir i dir' hi hfree
  exact (h i dir hdir hfree).imp (henabled i) (hreviving i)

/-- The step that may lose a directory is its disabling. -/
theorem Served.step (hinv : Inv flags s) (h : s.Served) (htimely : s.Timely a)
    (hstep : Step flags a s s') : s'.Served := by
  cases hstep with
  | @allocBlock _ t hidle =>
      exact h.of_le (fun i dir hdir hfree => ⟨dir, hdir, hfree⟩) (fun _ h => h)
        (fun i hi => hi.setCall (t := t) (by simp [hidle]) rfl)
  | @freeBlock _ t id hidle hid hother =>
      exact h.of_le (fun i dir hdir hfree => ⟨dir, hdir, hfree⟩) (fun _ h => h)
        (fun i hi => hi.setCall (t := t) (by simp [hidle]) rfl)
  | @allDisabled _ t hcall hnext =>
      have hsame := (CacheDirRouter.nextDirIndex_enabled s.mgr.router).1
      exact h.of_le (fun i dir hdir hfree => ⟨dir, hdir, hfree⟩) (fun _ h => by rwa [hsame])
        (fun i hi => hi.setCall (t := t) (by simp [hcall]) rfl)
  | @nextDirIndex _ t dirIndex hcall hnext =>
      have hsame := (CacheDirRouter.nextDirIndex_enabled s.mgr.router).1
      exact h.of_le (fun i dir hdir hfree => ⟨dir, hdir, hfree⟩) (fun _ h => by rwa [hsame])
        (fun i hi => hi.setCall (t := t) (by simp [hcall]) rfl)
  | @dirAllocBlock _ t dirIndex blockIndex dir dir' hcall hdir halloc =>
      obtain ⟨_, _, _, hsome⟩ :=
        (hinv.mgr.dir dir (List.mem_of_getElem? hdir)).allocBlock halloc
      obtain ⟨_, _, hbits⟩ := hsome blockIndex rfl
      refine h.of_le ?_ (fun _ h => h) (fun i hi => hi.setCall (t := t) (by simp [hcall]) rfl)
      intro i d hd hfree
      dsimp only at hd
      rw [List.getElem?_set] at hd
      by_cases hi : dirIndex = i
      · -- a free block left was free before
        subst hi
        obtain ⟨hlt, _⟩ := List.getElem?_eq_some_iff.mp hdir
        rw [if_pos rfl, if_pos hlt] at hd
        cases hd
        obtain ⟨b, hb⟩ := hfree
        rw [hbits] at hb
        refine ⟨dir, hdir, b, ?_⟩
        split at hb
        next => cases hb
        next => exact hb
      · rw [if_neg hi] at hd
        exact ⟨d, hd, hfree⟩
  | @dirFull _ t dirIndex dir dir' hcall hdir halloc =>
      obtain ⟨hi, hget⟩ := List.getElem?_eq_some_iff.mp hdir
      have hsame := ((hinv.mgr.dir dir (List.mem_of_getElem? hdir)).allocBlock halloc).2.2.1 rfl
      subst hsame
      have hset : s.mgr.cacheDirs.set dirIndex dir' = s.mgr.cacheDirs := by
        rw [← hget, List.set_getElem_self]
      refine h.of_le ?_ (fun _ h => h) (fun i hi => hi.setCall (t := t) (by simp [hcall]) rfl)
      intro i d hd hfree
      dsimp only at hd
      rw [hset] at hd
      exact ⟨d, hd, hfree⟩
  | @disableDir _ t dirIndex hcall =>
      intro i dir hdir hfree
      have hkept : ∀ i, s.Reviving i → Reviving { s with
          mgr := { s.mgr with router := s.mgr.router.disableDir dirIndex }
          calls := update s.calls t (some .alloc) } i :=
        fun i hi => hi.setCall (t := t) (by simp [hcall]) rfl
      by_cases hi : dirIndex = i
      · subst hi
        rcases htimely with hfull | hreviving
        · exact absurd hfree (hfull dir hdir)
        · exact Or.inr (hkept _ hreviving)
      · refine (h i dir hdir hfree).imp (fun henabled => ?_) (hkept i)
        dsimp only
        rw [CacheDirRouter.disableDir_enabled, List.getElem?_set, if_neg hi]
        exact henabled
  | @dirFreeBlock _ t id dir dir' hcall hdir hfree =>
      intro i d hd hd'
      dsimp only at hd
      by_cases hi : id.dirIndex = i
      · exact Or.inr ⟨t, id, by simp, hi⟩
      · rw [List.getElem?_set, if_neg hi] at hd
        exact (h i d hd hd').imp_right fun hr => hr.setCall (t := t) (by simp [hcall]) rfl
  | @addDirWeight _ t id hcall =>
      intro i dir hdir hfree
      dsimp only at hdir
      by_cases hi : id.dirIndex = i
      · -- the directory is enabled now
        subst hi
        obtain ⟨hlt, _⟩ := List.getElem?_eq_some_iff.mp hdir
        rw [← hinv.mgr.router] at hlt
        left
        dsimp only
        rw [CacheDirRouter.addDirWeight_enabled, List.getElem?_set, if_pos rfl, if_pos]
        simpa [CacheDirRouter.enabled] using hlt
      · refine (h i dir hdir hfree).imp (fun henabled => ?_) ?_
        · dsimp only
          rw [CacheDirRouter.addDirWeight_enabled, List.getElem?_set, if_neg hi]
          exact henabled
        · rintro ⟨t', id', ht', rfl⟩
          have hne : t' ≠ t := by
            rintro rfl
            rw [hcall] at ht'
            cases ht'
            exact hi rfl
          exact ⟨t', id', by dsimp only; rw [update_of_ne hne, ht'], rfl⟩

/-- No sum of the router has overflowed if the number of freed blocks has not reached the bound. -/
def Exact (flags : Flags) (dirs : List DirSpace) (s : Shared) : Prop :=
  SumsFit flags dirs s.frees →
    CacheDirRouter.Bounded dirs.length ((dirs.map (·.quotaBytes)).sum : Nat)
      (flags.blockSize * s.frees : Nat) s.mgr.router

theorem Exact.length {dirs : List DirSpace} (hinv : Inv flags s) (h : s.Exact flags dirs)
    (hfits : SumsFit flags dirs s.frees) : s.mgr.cacheDirs.length = dirs.length := by
  rw [← hinv.mgr.router, (h hfits).length]

theorem Exact.step {dirs : List DirSpace} (hinv : Inv flags s) (h : s.Exact flags dirs)
    (hstep : Step flags a s s') : s'.Exact flags dirs := by
  intro hfits
  have hnext : SumsFit flags dirs s.frees →
      CacheDirRouter.Bounded dirs.length ((dirs.map (·.quotaBytes)).sum : Nat)
        (flags.blockSize * s.frees : Nat) s.mgr.router.nextDirIndex.2 := by
    intro hfits
    refine (h hfits).nextDirIndex (Int.natCast_nonneg _) ?_
    unfold SumsFit at hfits
    exact_mod_cast hfits
  cases hstep with
  | allocBlock => exact h hfits
  | freeBlock => exact h hfits
  | allDisabled => exact hnext hfits
  | nextDirIndex => exact hnext hfits
  | dirAllocBlock => exact h hfits
  | dirFull => exact h hfits
  | @disableDir _ t dirIndex hcall =>
      exact (h hfits).disableDir (h.length hinv hfits ▸ hinv.dir t _ dirIndex hcall rfl)
  | dirFreeBlock => exact h hfits
  | @addDirWeight _ t id hcall =>
      have hi := hinv.dir t _ id.dirIndex hcall rfl
      have hfits' : SumsFit flags dirs s.frees := hfits.mono (Nat.le_succ _)
      rw [h.length hinv hfits'] at hi
      have hgain : ((flags.blockSize * (s.frees + 1) : Nat) : Int) =
          (flags.blockSize * s.frees : Nat) + flags.blockSize := by
        push_cast
        ring
      have hsize : i64 flags.blockSize = flags.blockSize := by
        have hle : flags.blockSize ≤ flags.blockSize * (s.frees + 1) :=
          Nat.le_mul_of_pos_right _ (Nat.succ_pos _)
        unfold SumsFit at hfits
        dsimp only at hfits
        exact i64_eq (by omega) (by omega)
      dsimp only
      rw [hgain, hsize]
      refine (h hfits').addDirWeight hi (Int.natCast_nonneg _)
        (Int.natCast_nonneg _) ?_
      rw [← hgain]
      unfold SumsFit at hfits
      exact_mod_cast hfits

theorem init_inv {dirs : List DirSpace} (hdirs : dirs.length ≤ 256) :
    Inv flags (init flags dirs) ∧ (init flags dirs).Served := by
  obtain ⟨hinv, hrouted, _⟩ := (@Run.init flags dirs).inv hdirs
  refine ⟨⟨hinv, (fun _ _ h => by cases h), (fun _ _ _ h => by cases h),
    (fun _ _ _ h => by cases h)⟩, fun i dir hdir hfree => Or.inl ?_⟩
  have hlt : i < (init flags dirs).mgr.router.enabled.length := by
    obtain ⟨hlt, _⟩ := List.getElem?_eq_some_iff.mp hdir
    unfold CacheDirRouter.enabled
    rw [List.length_map]
    exact hinv.router ▸ hlt
  rw [List.getElem?_eq_getElem hlt]
  cases henabled : (init flags dirs).mgr.router.enabled[i] with
  | true => rfl
  | false =>
      have hget := List.getElem?_eq_getElem hlt
      rw [henabled] at hget
      exact absurd hfree (hrouted i dir hdir hget)

end Shared

/-- The runs of concurrent calls from the start. -/
def Reachable (flags : Flags) (dirs : List DirSpace) : Shared → Prop :=
  Moves (Step flags) (fun _ => True) (.init flags dirs)

/-- The runs in which no directory is disabled too late. -/
def TimelyReachable (flags : Flags) (dirs : List DirSpace) : Shared → Prop :=
  Moves (fun a s s' => s.Timely a ∧ Step flags a s s') (fun _ => True) (.init flags dirs)

theorem TimelyReachable.init (flags : Flags) (dirs : List DirSpace) :
    TimelyReachable flags dirs (.init flags dirs) := Moves.refl

theorem TimelyReachable.step {dirs : List DirSpace} {a : Act} {s s' : Shared}
    (h : TimelyReachable flags dirs s) (hstep : Step flags a s s') (htimely : s.Timely a) :
    TimelyReachable flags dirs s' :=
  Moves.tail h (a := a) trivial ⟨htimely, hstep⟩

theorem TimelyReachable.inv {dirs : List DirSpace} (hdirs : dirs.length ≤ 256) {s : Shared}
    (h : TimelyReachable flags dirs s) :
    s.Inv flags ∧ s.Served ∧ s.Exact flags dirs := by
  obtain ⟨hinv, hserved⟩ := @Shared.init_inv flags dirs hdirs
  refine Moves.invariant (fun s => s.Inv flags ∧ s.Served ∧ s.Exact flags dirs) ?_ h
    ⟨hinv, hserved, init_bounded⟩
  rintro a s s' - ⟨htimely, hstep⟩ ⟨hinv, hserved, hexact⟩
  exact ⟨hinv.step hstep, hserved.step hinv htimely hstep, hexact.step hinv hstep⟩

theorem TimelyReachable.reachable {dirs : List DirSpace} {s : Shared}
    (h : TimelyReachable flags dirs s) : Reachable flags dirs s :=
  Relation.ReflTransGen.mono (fun _ _ h => h.imp fun _ h => h.imp_right And.right) _ _ h

/-- The router offers every directory with a free block, so that an allocation finds one. -/
def NoDirLost (flags : Flags) (mgr : DiskSpaceManager) : Prop :=
  (∀ (i : Nat) (dir : CacheDir), mgr.cacheDirs[i]? = some dir → dir.HasFree →
    mgr.router.enabled[i]? = some true) ∧
  ((∃ dir ∈ mgr.cacheDirs, dir.HasFree) →
    ∃ id mgr', allocBlock flags mgr = some (some id, mgr'))

/-- The sums of the router have not overflowed, and do not in an allocation that follows. -/
def NoOverflow (flags : Flags) (mgr : DiskSpaceManager) : Prop :=
  mgr.router.overflowed = false ∧
    ∀ r mgr', allocBlock flags mgr = some (r, mgr') → mgr'.router.overflowed = false

/-- If no directory is disabled after a block of it was freed, no directory is lost. No sum of
the router overflows before the quotas and the number of freed blocks reach the bound. -/
theorem no_dir_lost {dirs : List DirSpace} (hdirs : dirs.length ≤ 256) {s : Shared}
    (h : TimelyReachable flags dirs s) (hidle : s.Idle) :
    NoDirLost flags s.mgr ∧ (SumsFit flags dirs s.frees → NoOverflow flags s.mgr) := by
  obtain ⟨hinv, hserved, hexact⟩ := h.inv hdirs
  have henabled : ∀ (i : Nat) (dir : CacheDir), s.mgr.cacheDirs[i]? = some dir → dir.HasFree →
      s.mgr.router.enabled[i]? = some true := by
    intro i dir hdir hfree
    refine (hserved i dir hdir hfree).resolve_right ?_
    rintro ⟨t, id, ht, _⟩
    rw [hidle t] at ht
    cases ht
  refine ⟨⟨henabled, ?_⟩, fun hfits => ⟨(hexact hfits).exact, fun r mgr' hr => ?_⟩⟩
  swap
  · refine (allocRounds_bounded (Int.natCast_nonneg _) ?_ _ (hexact hfits) hr).exact
    unfold SumsFit at hfits
    exact_mod_cast hfits
  rintro ⟨dir, hdir, hfree⟩
  have hrouted : s.mgr.Routed := by
    intro i dir hdir hoff hfree
    rw [henabled i dir hdir hfree] at hoff
    cases hoff
  cases hr : allocBlock flags s.mgr with
  | none => exact absurd hr hinv.mgr.allocBlock_defined
  | some result =>
      obtain ⟨r, mgr'⟩ := result
      cases r with
      | some id => exact ⟨id, mgr', rfl⟩
      | none => exact absurd hfree ((allocRounds_routed _ hinv.mgr hrouted hr).2.1 rfl dir hdir)

/-- Blocks of four bytes. -/
def smallBlocks : Flags :=
  { Flags.default with blockSize := 4, blockSize_pos := Flags.small.blockSize_pos }

/-- A directory of one block. -/
def oneDir : List DirSpace := [⟨"/a", 4⟩]

theorem create_oneDir : CacheDir.create smallBlocks 0 4 = ⟨0, 4, 1, [⟨0, [true], 1⟩], [0], [4]⟩ := by
  have hcount : u32 (4 / 4 : Nat) = 1 := by decide +kernel
  unfold CacheDir.create
  dsimp only [smallBlocks]
  rw [hcount]
  rfl

/-- The block is allocated by one call, and another has found the directory full. -/
def fullDir : Shared where
  mgr := ⟨4, 4, [⟨0, 4, 1, [⟨0, [false], 0⟩], [], [4]⟩], ⟨[⟨0, 4, 4, true⟩], false⟩⟩
  held := [⟨0, 0⟩]
  calls := update (fun _ => none) 1 (some (.failed 0))
  frees := 0

theorem fullDir_reached : TimelyReachable smallBlocks oneDir fullDir := by
  have hrouter : CacheDirRouter.nextDirIndex ⟨[⟨0, i64 (4 : Nat), i64 (4 : Nat), true⟩], false⟩ =
      (some 0, ⟨[⟨0, 4, 4, true⟩], false⟩) := by decide +kernel
  have hagain : CacheDirRouter.nextDirIndex ⟨[⟨0, 4, 4, true⟩], false⟩ =
      (some 0, ⟨[⟨0, 4, 4, true⟩], false⟩) := by decide +kernel
  have h₁ := (TimelyReachable.init smallBlocks oneDir).step (.allocBlock (t := 0) rfl) trivial
  have h₂ := h₁.step (.nextDirIndex (t := 0) rfl rfl) trivial
  have h₃ := h₂.step (.dirAllocBlock (t := 0) rfl (congrArg some create_oneDir) rfl) trivial
  have h₄ := h₃.step (.allocBlock (t := 1) rfl) trivial
  have h₅ := h₄.step (.nextDirIndex (t := 1) rfl rfl) trivial
  have h₆ := h₅.step (.dirFull (t := 1) rfl rfl rfl) trivial
  have hfull : TimelyReachable smallBlocks oneDir ⟨⟨u64 ((0 : Nat) + (4 : Nat)),
      u64 ((0 : Nat) + (4 : Nat)), [⟨0, 4, 1, [⟨0, [false], 0⟩], [], [4]⟩],
      (CacheDirRouter.nextDirIndex (CacheDirRouter.nextDirIndex
        ⟨[⟨0, i64 (4 : Nat), i64 (4 : Nat), true⟩], false⟩).2).2⟩, [⟨0, u32 (0 : Nat)⟩],
      update (update (update (update (update (update (fun _ => none) 0 (some .alloc))
        0 (some (.chosen 0))) 0 none) 1 (some .alloc)) 1 (some (.chosen 0)))
        1 (some (.failed 0)), 0⟩ := h₆
  have hused : u64 ((0 : Nat) + (4 : Nat)) = 4 := by decide +kernel
  have hblock : u32 (0 : Nat) = 0 := by decide +kernel
  rw [hrouter, hagain, hused, hblock, update_idem, update_idem, update_idem, update_idem,
    update_eq_self_iff.mpr rfl] at hfull
  exact hfull

theorem fullDir_calls (t : Nat) (blockId : BlockId) : fullDir.calls t ≠ some (.free blockId) := by
  intro h
  have hcall : update (fun _ => none) 1 (some (.failed 0)) t = some (Call.free blockId) := h
  have hnone := Shared.of_update hcall (by simp)
  cases hnone

/-- An allocation finds the only directory full, its block is freed, and the directory is
disabled after that: from then on every allocation fails. -/
theorem no_dir_lost_race : ∃ s, Reachable smallBlocks oneDir s ∧ s.Idle ∧
    (∃ dir ∈ s.mgr.cacheDirs, dir.HasFree) ∧ ¬ NoDirLost smallBlocks s.mgr := by
  have hfull := fullDir_reached.reachable
  have h₁ := hfull.tail (a := .freeBlock 0 ⟨0, 0⟩) trivial (.freeBlock rfl List.mem_cons_self
    fun t => fullDir_calls t ⟨0, 0⟩)
  have h₂ := h₁.tail trivial (.dirFreeBlock (t := 0) rfl rfl rfl)
  have h₃ := h₂.tail trivial (.addDirWeight (t := 0) rfl)
  have h₄ := h₃.tail trivial (.disableDir (t := 1) rfl)
  have h₅ := h₄.tail trivial (.allDisabled (t := 1) rfl rfl)
  refine ⟨_, h₅, ?_, ⟨_, List.mem_singleton_self _, 0, rfl⟩, ?_⟩
  · intro t
    simp only [update_apply, fullDir]
    grind
  · rintro ⟨h, _⟩
    have := h 0 _ rfl ⟨0, rfl⟩
    cases this

/-- The directory is disabled while it is full, and the free enables it again. -/
theorem no_dir_lost_timely : ∃ s, TimelyReachable smallBlocks oneDir s ∧
    (∃ dir ∈ s.mgr.cacheDirs, dir.HasFree) ∧ NoDirLost smallBlocks s.mgr ∧
      NoOverflow smallBlocks s.mgr := by
  have htimely : fullDir.MayDisable 0 := by
    left
    rintro dir ⟨⟩
    exact ((fullDir_reached.inv (by decide)).1.mgr.dir _ List.mem_cons_self).allocBlock_none rfl
  have h₁ := fullDir_reached.step (a := .disableDir 1 0) (.disableDir rfl) htimely
  have h₂ := h₁.step (.allDisabled (t := 1) rfl rfl) trivial
  have h₃ := h₂.step (a := .freeBlock 0 ⟨0, 0⟩) (.freeBlock rfl List.mem_cons_self (by
    intro t h
    have hcall := Shared.of_update (Shared.of_update h (by simp)) (by simp)
    exact fullDir_calls t ⟨0, 0⟩ hcall)) trivial
  have h₄ := h₃.step (.dirFreeBlock (t := 0) rfl rfl rfl) trivial
  have h₅ := h₄.step (.addDirWeight (t := 0) rfl) trivial
  have hfits : SumsFit smallBlocks oneDir (0 + 1) := by
    unfold SumsFit
    decide
  obtain ⟨hserved, hexact⟩ := no_dir_lost (by decide) h₅ fun t => by
    simp only [update_apply, fullDir]
    grind
  exact ⟨_, h₅, ⟨_, List.mem_singleton_self _, 0, rfl⟩, hserved, hexact hfits⟩

end DiskSpaceManager

end StarCache
