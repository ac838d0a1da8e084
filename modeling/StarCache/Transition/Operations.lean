import StarCache.Transition.Frame

/-!
# The basic operations as runs

Each basic operation of the program is a short run of the transition system; its
specification adds what the callers need to know of the state it leaves.
-/

namespace StarCache

open Prog MachineInt

variable {pf : Platform} {sc : Scenario pf} {P : Action → Prop} {T : Prop}
  {s₀ s t u : State} {g₀ g g' : Ghost}

/-- A run that drops no reference and returns with the handles it was called with. -/
structure Ran (sc : Scenario pf) (P : Action → Prop) (s : State) (g : Ghost) (t : State)
    (g' : Ghost) : Prop where
  other : P .other
  runs : Runs sc P ⟨s, g⟩ ⟨t, g'⟩
  locals : ∀ x ∈ s.locals, x ∈ t.locals
  memHandles : t.memHandles = s.memHandles
  diskHandles : t.diskHandles = s.diskHandles

namespace Ran

theorem refl (hother : P .other) : Ran sc P s g s g := ⟨hother, Moves.refl, fun _ h => h, rfl, rfl⟩

/-- One more step. -/
theorem step {a : Action} (h : Ran sc P s₀ g₀ s g) (hP : P a) (hstep : Step sc a ⟨s, g⟩ ⟨t, g'⟩)
    (hlocals : ∀ x ∈ s.locals, x ∈ t.locals) (hmem : t.memHandles = s.memHandles)
    (hdisk : t.diskHandles = s.diskHandles) : Ran sc P s₀ g₀ t g' :=
  ⟨h.other, Moves.tail h.runs hP hstep, fun x hx => hlocals x (h.locals x hx),
    hmem.trans h.memHandles, hdisk.trans h.diskHandles⟩

theorem trans (h : Ran sc P s₀ g₀ s g) (h' : Ran sc P s g t g') : Ran sc P s₀ g₀ t g' :=
  ⟨h.other, Moves.trans h.runs h'.runs, fun x hx => h'.locals x (h.locals x hx),
    h'.memHandles.trans h.memHandles, h'.diskHandles.trans h.diskHandles⟩

theorem mono {Q : Action → Prop} (h : Ran sc P s g t g') (hPQ : ∀ a, P a → Q a) :
    Ran sc Q s g t g' :=
  ⟨hPQ _ h.other, Moves.mono h.runs hPQ, h.locals, h.memHandles, h.diskHandles⟩

theorem inv (h : Ran sc P s g t g') (hinv : Inv sc ⟨s, g⟩) : Inv sc ⟨t, g'⟩ := hinv.runs h.runs

theorem static (h : Ran sc P s g t g') : Static s t := Runs.static h.runs

/-- Change what is owed. -/
theorem settle (h : Ran sc P s₀ g₀ s g) (hmem : s.MemEvictable pf g'.memOwed)
    (hdisk : s.DiskEvictable pf g'.diskOwed) (hnonEmpty : s.NonEmpty g'.hollow) :
    Ran sc P s₀ g₀ s g' :=
  h.step h.other (.settle g' hmem hdisk hnonEmpty) (fun _ hx => hx) rfl rfl

end Ran

section

variable (hran : Ran sc P s₀ g₀ s g)

include hran

/-! ## Bookkeeping -/

theorem emit_spec (e : Event) (hplain : e.Plain) : Spec T (emit e)
    (fun _ t => Ran sc P s₀ g₀ t g ∧ t = { s with trace := s.trace ++ [e] }) s :=
  ⟨hran.step hran.other (.emit e hplain) (fun _ h => h) rfl rfl, rfl⟩

theorem clearing_spec {id : CacheId} {r : ItemRef} (hfound : s.find id = some r)
    (hevicted : ∃ ids, .diskEvict ids ∈ s.trace ∧ id ∈ ids) :
    Spec T (emit (.diskCleared id r))
      (fun _ t => Ran sc P s₀ g₀ t g ∧ t = { s with trace := s.trace ++ [.diskCleared id r] }) s := by
  obtain ⟨ids, hevicted, hid⟩ := hevicted
  exact ⟨hran.step hran.other (.clearing id r ids hfound hevicted hid) (fun _ h => h) rfl rfl, rfl⟩

theorem deleting_spec {key : BlockKey} {r : ItemRef}
    (hcause : (s.items r).pinned = true → s.Partial pf r key.blockIndex) :
    Spec T (emit (.blockDeleted key r))
      (fun _ t => Ran sc P s₀ g₀ t g ∧ t = { s with trace := s.trace ++ [.blockDeleted key r] }) s :=
  ⟨hran.step hran.other (.deleting key r hcause) (fun _ h => h) rfl rfl, rfl⟩

/-- Clock, locks and the count of writes. -/
theorem idle_ran {clock concurrentWrites : Nat} {locks : List LockStep}
    (hclock : s.clock ≤ clock) :
    Ran sc P s₀ g₀ { s with clock, locks, concurrentWrites } g :=
  hran.step hran.other (.idle clock locks concurrentWrites s.memSpace s.diskSpace hclock
    (fun _ h => h) (fun _ h => h) (.refl _) rfl) (fun _ h => h) rfl rfl

theorem lock_spec (unique : Bool) (key : BlockKey) : Spec T (lock unique key)
    (fun _ t => Ran sc P s₀ g₀ t g ∧ t = { s with locks := t.locks }) s :=
  ⟨idle_ran hran (Nat.le_refl _), rfl⟩

theorem unlock_spec (unique : Bool) (key : BlockKey) : Spec T (unlock unique key)
    (fun _ t => Ran sc P s₀ g₀ t g ∧ t = { s with locks := t.locks }) s :=
  ⟨idle_ran hran (Nat.le_refl _), rfl⟩

theorem tick_spec : Spec T tick
    (fun n t => Ran sc P s₀ g₀ t g ∧ n = s.clock ∧ t = { s with clock := s.clock + 1 }) s :=
  ⟨idle_ran hran (Nat.le_succ _), rfl, rfl⟩

theorem hold_spec {x : Local} (halive : s.Alive x) : Spec T (hold x)
    (fun _ t => Ran sc P s₀ g₀ t g ∧ t = { s with locals := x :: s.locals }) s :=
  ⟨hran.step hran.other (.hold x halive) (fun _ h => List.mem_cons_of_mem _ h) rfl rfl, rfl⟩

/-! ## Deleters -/

theorem collect_ran (hinv : Inv sc ⟨s, g⟩) : Spec T (collect pf)
    (fun _ t => Ran sc P s₀ g₀ t g ∧ Collects s t ∧ Collected t) s := by
  refine (collect_spec hinv.wf).mono ?_
  rintro _ t ⟨hwf, hcollected, heffect⟩
  have heq := heffect.eq
  exact ⟨hran.step hran.other (.collect heffect hwf) (fun _ h => by rw [heq]; exact h)
    (by rw [heq]) (by rw [heq]), heffect, hcollected⟩

/-- A step and the deleters that it sets off. -/
theorem step_collect_spec {a : Action} (hinv : Inv sc ⟨s, g⟩) (hP : P a)
    (hstep : Step sc a ⟨s, g⟩ ⟨u, g'⟩) (hlocals : ∀ x ∈ s.locals, x ∈ u.locals)
    (hmem : u.memHandles = s.memHandles) (hdisk : u.diskHandles = s.diskHandles) :
    Spec T (collect pf) (fun _ t => Ran sc P s₀ g₀ t g' ∧ Collects u t ∧ Collected t) u :=
  collect_ran (hran.step hP hstep hlocals hmem hdisk) (hstep.inv hinv)

omit hran in
/-- The references of a block of the program text end with it. -/
theorem leave_spec (hinv : Inv sc ⟨s, g⟩) (hbody : Ran sc P s g u g') :
    Spec T (collect pf) (fun _ t => Ran sc P s g t g' ∧ t.locals = s.locals ∧ Collected t ∧
      Collects { u with locals := s.locals } t) { u with locals := s.locals } := by
  have hleave : Step sc .other ⟨u, g'⟩ ⟨{ u with locals := s.locals }, g'⟩ :=
    .leave s.locals hbody.locals
  have hleft : Ran sc P s g { u with locals := s.locals } g' :=
    ⟨hbody.other, Moves.tail hbody.runs hbody.other hleave, fun _ h => h, hbody.memHandles,
      hbody.diskHandles⟩
  refine (collect_ran hleft (hleft.inv hinv)).mono ?_
  rintro _ t ⟨hcollect, heffect, hcollected⟩
  exact ⟨hcollect, by rw [heffect.eq], hcollected, heffect⟩

omit hran in
theorem scope_rule {α : Type} {body : Prog State α} {R Q : α → State → Prop}
    (hbody : Spec T body R s) (hend : ∀ a u, R a u →
      Spec T (collect pf) (fun _ t => Q a t) { u with locals := s.locals }) :
    Spec T (scope pf body) Q s := by
  unfold scope
  simp only [spec_bind, spec_read, spec_modify]
  exact hbody.mono hend

/-- A block of the program text that is a run. -/
theorem scope_spec {α : Type} {body : Prog State α} (G : α → Ghost) (Q : α → State → Prop)
    (hinv : Inv sc ⟨s, g⟩)
    (hbody : Spec T body (fun a u => Ran sc P s g u (G a) ∧ Q a u) s) :
    Spec T (scope pf body) (fun a t => Ran sc P s₀ g₀ t (G a) ∧ t.locals = s.locals ∧
      Collected t ∧ ∃ u, Q a u ∧ Collects { u with locals := s.locals } t) s := by
  refine scope_rule hbody ?_
  rintro a u ⟨hu, hQ⟩
  refine (leave_spec hinv hu).mono ?_
  rintro _ t ⟨ht, hlocals, hcollected, heffect⟩
  exact ⟨hran.trans ht, hlocals, hcollected, u, hQ, heffect⟩

/-! ## Allocation -/

theorem newSegment_spec (offset size : Nat) (buf : IOBuf) (urgent : Bool) :
    Spec T (MemCache.newBlockSegment pf offset size buf urgent) (fun r t => Ran sc P s₀ g₀ t g ∧
      ∀ ref, r = some ref → ref ∈ t.liveSegments ∧ t.segments ref = ⟨offset, size, buf⟩) s := by
  unfold MemCache.newBlockSegment
  rw [spec_modifyGet]
  dsimp only
  split
  next hgrant =>
    refine ⟨hran.step hran.other (.newSegment ⟨offset, size, buf⟩ _ (fun total h => ?_)
      (MemSpaceManager.incMem_quota _ _)) (fun _ h => h) rfl rfl, fun ref href => ?_⟩
    · rw [Nat.add_comm]
      exact MemSpaceManager.incMem_granted h hgrant
    · cases href
      exact ⟨List.mem_cons_self, Function.update_self ..⟩
  next hdeny =>
    refine ⟨hran.step hran.other (.idle s.clock s.locks s.concurrentWrites _ s.diskSpace
      (Nat.le_refl _) (fun total h => ?_) (fun _ h => h) (.refl _)
      (MemSpaceManager.incMem_quota _ _)) (fun _ h => h) rfl rfl, fun _ h => by cases h⟩
    exact MemSpaceManager.incMem_denied h (by simpa using hdeny)

/-- A new disk block belongs to no item yet. -/
theorem newBlockItem_spec (hinv : Inv sc ⟨s, g⟩) :
    Spec T (DiskCache.newBlockItem pf) (fun r t => Ran sc P s₀ g₀ t g ∧
      ∀ id, r = some id → id ∈ t.liveBlocks ∧ ∀ r i, t.OwnerAt id r i) s := by
  unfold DiskCache.newBlockItem
  simp only [spec_bind]
  refine spec_zoom ?_
  unfold Spec
  cases halloc : DiskSpaceManager.allocBlock pf.flags s.diskSpace with
  | none => exact absurd halloc hinv.wf.diskSpace.allocBlock_defined
  | some result =>
      obtain ⟨r, diskSpace⟩ := result
      obtain ⟨hlayout, _, _⟩ := hinv.wf.diskSpace.allocBlock halloc
      cases r with
      | none =>
          refine ⟨hran.step hran.other (.idle s.clock s.locks s.concurrentWrites s.memSpace
            diskSpace (Nat.le_refl _) (fun _ h => h) (fun ids h => ?_) hlayout rfl)
            (fun _ h => h) rfl rfl, fun _ h => by cases h⟩
          exact (h.allocBlock halloc).2.1 rfl
      | some id =>
          refine ⟨hran.step hran.other (.newBlock id (pf.env.freshWords s.clock) (s.clock + 1)
            diskSpace (Nat.le_succ _) (fun ids h => ?_) hlayout) (fun _ h => h) rfl rfl,
            fun id' hid => ?_⟩
          · exact ((h.allocBlock halloc).2.2 id rfl).2
          · cases hid
            refine ⟨List.mem_cons_self, fun r i r' i' b hr' hb hid' => ?_⟩
            exact absurd (hinv.wf.disk_live hr' hb hid')
              ((hinv.wf.diskSpace.allocBlock halloc).2.2 id rfl).1

/-! ## Eviction policies -/

theorem memTrack_spec (hinv : Inv sc ⟨s, g⟩) (key : BlockKey) (hP : P (.track key.cacheId))
    (size : Nat)
    (hfree : ¬ s.MemBusy pf key ∨ s.find key.cacheId = none) :
    Spec T (MemCache.evictTrack pf key size) (fun _ t => Ran sc P s₀ g₀ t g ∧
      t = { s with memTracker := t.memTracker, trace := s.trace ++ [.memTrack key] } ∧
      ∀ key', t.MemTracked pf key' ↔ key' = key ∨ s.MemTracked pf key') s :=
  ⟨hran.step hP (.memTrack key size hfree) (fun _ h => h) rfl rfl, rfl,
    (hinv.wf.memTracker.add key size).2.1⟩

theorem diskTrack_spec (hinv : Inv sc ⟨s, g⟩) (id : CacheId) (hP : P (.track id)) (size : Nat)
    (hfree : ¬ s.DiskBusy pf id ∨ s.find id = none)
    (hunpinned : ∀ r, s.find id = some r → (s.items r).pinned = false) :
    Spec T (DiskCache.evictTrack pf id size) (fun _ t => Ran sc P s₀ g₀ t g ∧
      t = { s with diskTracker := t.diskTracker, trace := s.trace ++ [.diskTrack id] } ∧
      ∀ id', t.DiskTracked pf id' ↔ id' = id ∨ s.DiskTracked pf id') s :=
  ⟨hran.step hP (.diskTrack id size hfree hunpinned) (fun _ h => h) rfl rfl, rfl,
    (hinv.wf.diskTracker.add id size).2.1⟩

theorem memEvict_spec (hinv : Inv sc ⟨s, g⟩) (size : Nat) :
    Spec T (MemCache.evict size) (fun keys t =>
      Ran sc P s₀ g₀ t { g with memOwed := {key | key ∈ keys} ∪ g.memOwed } ∧
      t = { s with memTracker := t.memTracker, trace := s.trace ++ [.memEvict keys] } ∧
      (∀ key ∈ keys, ¬ t.MemBusy pf key) ∧ ∀ key ∈ keys, ¬ s.MemBusy pf key) s := by
  obtain ⟨hinv', _, hidle, htracked, hidle'⟩ := LruEvictionPolicy.Inv.evictShards size
    (List.range s.memTracker.shardCount) s.memTracker hinv.wf.memTracker
  refine ⟨hran.step hran.other (.memEvict _ _ hinv' hidle htracked hidle') (fun _ h => h) rfl rfl, rfl,
    fun key hkey hbusy => ((htracked key).mp hbusy.1).2 hkey,
    fun key hkey hbusy => hbusy.2 (hidle key hkey)⟩

theorem memEvictFor_spec (hinv : Inv sc ⟨s, g⟩) (key : BlockKey) (size : Nat) :
    Spec T (MemCache.evictFor pf key size) (fun keys t =>
      Ran sc P s₀ g₀ t { g with memOwed := {key | key ∈ keys} ∪ g.memOwed } ∧
      t = { s with memTracker := t.memTracker, trace := s.trace ++ [.memEvict keys] } ∧
      (∀ key ∈ keys, ¬ t.MemBusy pf key) ∧ ∀ key ∈ keys, ¬ s.MemBusy pf key) s := by
  obtain ⟨hinv', _, hidle, htracked, hidle'⟩ := hinv.wf.memTracker.evictShard
    (s.memTracker.shard pf.blockKeyHash key) size
  refine ⟨hran.step hran.other (.memEvict _ _ hinv' hidle htracked hidle') (fun _ h => h) rfl rfl, rfl,
    fun key hkey hbusy => ((htracked key).mp hbusy.1).2 hkey,
    fun key hkey hbusy => hbusy.2 (hidle key hkey)⟩

theorem diskEvictFor_spec (hinv : Inv sc ⟨s, g⟩) (id : CacheId) (size : Nat) :
    Spec T (DiskCache.evictFor pf id size) (fun ids t =>
      Ran sc P s₀ g₀ t { g with diskOwed := {id | id ∈ ids} ∪ g.diskOwed } ∧
      t = { s with diskTracker := t.diskTracker, trace := s.trace ++ [.diskEvict ids] } ∧
      ∀ id ∈ ids, s.diskTracker.Idle pf.cacheIdHash id) s := by
  obtain ⟨hinv', _, hidle, htracked, hidle'⟩ := hinv.wf.diskTracker.evictShard
    (s.diskTracker.shard pf.cacheIdHash id) size
  exact ⟨hran.step hran.other (.diskEvict _ _ hinv' hidle htracked hidle') (fun _ h => h) rfl rfl,
    rfl, hidle⟩

theorem memUntrack_spec (hinv : Inv sc ⟨s, g⟩) (key : BlockKey)
    (hP : P (.untrack key.cacheId)) (hgone : s.find key.cacheId = none) :
    Spec T (MemCache.evictUntrack pf key) (fun _ t => Ran sc P s₀ g₀ t g ∧
      t = { s with memTracker := t.memTracker } ∧
      ∀ key', t.MemTracked pf key' ↔ s.MemTracked pf key' ∧ key' ≠ key) s :=
  ⟨hran.step hP (.memUntrack key hgone) (fun _ h => h) rfl rfl, rfl,
    (hinv.wf.memTracker.remove key).2.1⟩

theorem diskUntrack_spec (id : CacheId) (hP : P (.untrack id)) (hgone : s.find id = none) :
    Spec T (DiskCache.evictUntrack pf id) (fun _ t => Ran sc P s₀ g₀ t g ∧
      t = { s with diskTracker := t.diskTracker }) s :=
  ⟨hran.step hP (.diskUntrack id hgone) (fun _ h => h) rfl rfl, rfl⟩

omit hran in
theorem memTouch_spec (hinv : Inv sc ⟨s, g⟩) (hother : P .other) (hP : P .touchMem)
    (key : BlockKey) (force : Bool) :
    Spec T (MemCache.evictTouch pf key force) (fun handle t => Runs sc P ⟨s, g⟩ ⟨t, g⟩ ∧
      t = { s with clock := s.clock + 1, memTracker := t.memTracker,
                   memHandles := handle.toList ++ s.memHandles } ∧
      (handle.isSome = true → t.MemBusy pf key) ∧
      (force = true → handle = none → ¬ t.MemTracked pf key) ∧
      ∀ key', t.MemTracked pf key' ↔ s.MemTracked pf key') s := by
  have hpolicy := hinv.wf.memTracker
  unfold MemCache.evictTouch
  simp only [spec_bind]
  have hrefl : Ran sc P s g s g := .refl hother
  refine (tick_spec hrefl).mono ?_
  rintro n v ⟨hran, rfl, rfl⟩
  refine spec_ite (fun _ => ?_) fun hno => ?_
  · rw [spec_modifyGet]
    dsimp only
    have htracked := hpolicy.touch_tracked key
    have hidle := hpolicy.touch_idle key key
    cases hr : (s.memTracker.touch pf.blockKeyHash key).1 with
    | none =>
        obtain ⟨hnot, hinv'⟩ := hpolicy.touch_none hr
        refine ⟨hran.runs.tail hP (.touchMem _ _ hinv' htracked), rfl, (fun h => by cases h),
          fun _ _ h => hnot ((htracked key).mp h), htracked⟩
    | some handle =>
        obtain ⟨hin, hinv'⟩ := hpolicy.touch_some hr
        exact ⟨hran.runs.tail hP (.touchMem _ _ hinv' htracked), rfl,
          fun _ => ⟨(htracked key).mpr hin, fun h => (hidle.mp h).2 rfl⟩, fun _ => (fun h => by cases h),
          htracked⟩
  · rw [spec_pure]
    refine ⟨hran.runs, rfl, (fun h => by cases h), fun hforce => ?_, fun _ => Iff.rfl⟩
    rw [hforce] at hno
    exact (hno rfl).elim

omit hran in
theorem diskTouch_spec (hinv : Inv sc ⟨s, g⟩) (hother : P .other) (hP : P .touchDisk)
    (id : CacheId) (force : Bool) :
    Spec T (DiskCache.evictTouch pf id force) (fun handle t => Runs sc P ⟨s, g⟩ ⟨t, g⟩ ∧
      t = { s with clock := s.clock + 1, diskTracker := t.diskTracker,
                   diskHandles := handle.toList ++ s.diskHandles } ∧
      (handle.isSome = true → t.DiskBusy pf id) ∧
      (force = true → handle = none → ¬ t.DiskTracked pf id)) s := by
  have hpolicy := hinv.wf.diskTracker
  unfold DiskCache.evictTouch
  simp only [spec_bind]
  have hrefl : Ran sc P s g s g := .refl hother
  refine (tick_spec hrefl).mono ?_
  rintro n v ⟨hran, rfl, rfl⟩
  refine spec_ite (fun _ => ?_) fun hno => ?_
  · rw [spec_modifyGet]
    dsimp only
    have htracked := hpolicy.touch_tracked id
    have hidle := hpolicy.touch_idle id id
    cases hr : (s.diskTracker.touch pf.cacheIdHash id).1 with
    | none =>
        obtain ⟨hnot, hinv'⟩ := hpolicy.touch_none hr
        exact ⟨hran.runs.tail hP (.touchDisk _ _ hinv' htracked), rfl, (fun h => by cases h),
          fun _ _ h => hnot ((htracked id).mp h)⟩
    | some handle =>
        obtain ⟨hin, hinv'⟩ := hpolicy.touch_some hr
        exact ⟨hran.runs.tail hP (.touchDisk _ _ hinv' htracked), rfl,
          fun _ => ⟨(htracked id).mpr hin, fun h => (hidle.mp h).2 rfl⟩, fun _ => (fun h => by cases h)⟩
  · rw [spec_pure]
    refine ⟨hran.runs, rfl, (fun h => by cases h), fun hforce => ?_⟩
    rw [hforce] at hno
    exact (hno rfl).elim

omit hran in
theorem memRelease_spec (hinv : Inv sc ⟨s, g⟩) (hP : P .touchMem) {handle : Option EvictionHandle}
    {out : List EvictionHandle} (hhandles : s.memHandles = handle.toList ++ out) :
    Spec T (MemCache.evictRelease handle) (fun _ t => Runs sc P ⟨s, g⟩ ⟨t, g⟩ ∧
      t = { s with memTracker := t.memTracker, memHandles := out } ∧
      ∀ key, t.MemTracked pf key ↔ s.MemTracked pf key) s := by
  have hpolicy := hinv.wf.memTracker
  dsimp only at hpolicy
  rw [hhandles] at hpolicy
  unfold MemCache.evictRelease
  rw [spec_modify, hhandles]
  cases handle with
  | none =>
      exact ⟨Moves.single hP (.touchMem s.memTracker out hpolicy fun _ => Iff.rfl), rfl,
        fun _ => Iff.rfl⟩
  | some handle =>
      obtain ⟨hinv', htracked, _⟩ := LruEvictionPolicy.Inv.release hpolicy
      dsimp only [Option.toList]
      rw [List.foldl_cons, List.foldl_nil, List.cons_append, List.nil_append, List.erase_cons_head]
      exact ⟨Moves.single hP (.touchMem _ out hinv' htracked), rfl, htracked⟩

omit hran in
theorem diskRelease_spec (hinv : Inv sc ⟨s, g⟩) (hP : P .touchDisk)
    {handle : Option EvictionHandle} {out : List EvictionHandle}
    (hhandles : s.diskHandles = handle.toList ++ out) :
    Spec T (DiskCache.evictRelease handle) (fun _ t => Runs sc P ⟨s, g⟩ ⟨t, g⟩ ∧
      t = { s with diskTracker := t.diskTracker, diskHandles := out } ∧
      ∀ id, t.DiskTracked pf id ↔ s.DiskTracked pf id) s := by
  have hpolicy := hinv.wf.diskTracker
  dsimp only at hpolicy
  rw [hhandles] at hpolicy
  unfold DiskCache.evictRelease
  rw [spec_modify, hhandles]
  cases handle with
  | none =>
      exact ⟨Moves.single hP (.touchDisk s.diskTracker out hpolicy fun _ => Iff.rfl), rfl,
        fun _ => Iff.rfl⟩
  | some handle =>
      obtain ⟨hinv', htracked, _⟩ := LruEvictionPolicy.Inv.release hpolicy
      dsimp only [Option.toList]
      rw [List.foldl_cons, List.foldl_nil, List.cons_append, List.nil_append, List.erase_cons_head]
      exact ⟨Moves.single hP (.touchDisk _ out hinv' htracked), rfl, htracked⟩

/-! ## Blocks of items -/

variable {r : ItemRef} {i : Nat}

theorem attachMem_spec {block : MemBlockItem} (hinv : Inv sc ⟨s, g⟩) (hP : P (.fill r))
    (halive : s.Alive (.memBlock block))
    (hcontent : sc.D →
      MemOk pf.flags (blockPart pf.flags (sc.val r) i) (sc.whole r i) s.segments block)
    (hindexed : s.Indexed r → s.hasDiskLayer = true ∧
      ((∃ b, s.HasBlock r i b ∧ b.diskBlockItem ≠ none) ∨ s.Harmed r))
    (hgrows : sc.D → ∀ b old, s.HasBlock r i b → b.memBlockItem = some old →
      ∀ k, Resident old.slices k → Resident block.slices k) :
    Spec T (setMemBlock pf r i (some block)) (fun _ t =>
      Ran sc P s₀ g₀ t { g with memOwed := insert ⟨s.idOf pf r, i⟩ g.memOwed } ∧
      Collects (s.withItem r ((s.items r).updateBlock i fun b =>
        { b with memBlockItem := some block })) t) s := by
  unfold setMemBlock updateItem
  simp only [spec_bind, spec_modify]
  exact (step_collect_spec hran hinv hP (.attachMem r i block halive hcontent hindexed hgrows)
    (fun _ h => h) rfl rfl).mono fun _ t h => ⟨h.1, h.2.1⟩

theorem dropMem_spec (hinv : Inv sc ⟨s, g⟩) (hP : P (.change r))
    (hindexed : s.Indexed r → s.hasDiskLayer = true ∧
      ((∃ b, s.HasBlock r i b ∧ b.diskBlockItem ≠ none) ∨
        ∃ key, key.blockIndex = i ∧ .flushFailed key r (s.items r) ∈ s.trace)) :
    Spec T (setMemBlock pf r i none) (fun _ t =>
      Ran sc P s₀ g₀ t { g with hollow := insert r g.hollow } ∧
      Collects (s.withItem r ((s.items r).updateBlock i fun b =>
        { b with memBlockItem := none })) t) s := by
  unfold setMemBlock updateItem
  simp only [spec_bind, spec_modify]
  exact (step_collect_spec hran hinv hP (.dropMem r i hindexed) (fun _ h => h) rfl rfl).mono
    fun _ t h => ⟨h.1, h.2.1⟩

theorem attachDisk_spec {id : BlockId} (hinv : Inv sc ⟨s, g⟩) (hP : P (.change r))
    (halive : id ∈ s.liveBlocks) (howner : s.OwnerAt id r i)
    (hcontent : sc.D → BlockOnDisk pf s (blockPart pf.flags (sc.val r) i) id) :
    Spec T (setDiskBlock pf r i id) (fun _ t =>
      Ran sc P s₀ g₀ t { g with diskOwed := insert (s.idOf pf r) g.diskOwed } ∧
      Collects (s.withItem r ((s.items r).updateBlock i fun b =>
        { b with diskBlockItem := some id })) t) s := by
  unfold setDiskBlock updateItem
  simp only [spec_bind, spec_modify]
  exact (step_collect_spec hran hinv hP (.attachDisk r i id halive howner hcontent)
    (fun _ h => h) rfl rfl).mono fun _ t h => ⟨h.1, h.2.1⟩

theorem clearBlock_spec (hinv : Inv sc ⟨s, g⟩) (hP : P (.change r))
    (hindexed : s.Indexed r → (∃ key, .blockDeleted key r ∈ s.trace) ∧ ¬ s.Locked r) :
    Spec T (clearBlock pf r i) (fun _ t =>
      Ran sc P s₀ g₀ t { g with hollow := insert r g.hollow } ∧
      Collects (s.withItem r ((s.items r).updateBlock i fun _ => {})) t) s := by
  unfold clearBlock updateItem
  simp only [spec_bind, spec_modify]
  exact (step_collect_spec hran hinv hP (.clearBlock r i hindexed) (fun _ h => h) rfl rfl).mono
    fun _ t h => ⟨h.1, h.2.1⟩

theorem setPinned_spec (hP : P (.pin r)) (pinned : Bool) :
    Spec T (setPinned r pinned) (fun changed t =>
      Ran sc P s₀ g₀ t { g with
        memOwed := {key | key.cacheId = s.idOf pf r} ∪ g.memOwed
        diskOwed := insert (s.idOf pf r) g.diskOwed } ∧
      changed = ((s.items r).pinned != pinned) ∧
      t = s.withItem r { s.items r with pinned }) s := by
  unfold setPinned updateItem
  simp only [spec_bind, spec_read, spec_modify, spec_pure]
  exact ⟨hran.step hP (.setPinned r pinned) (fun _ h => h) rfl rfl, rfl, rfl⟩

theorem clearDisk_spec (hinv : Inv sc ⟨s, g⟩) (hP : P (.change r))
    (hindexed : s.Indexed r → ∃ id, .diskCleared id r ∈ s.trace) :
    Spec T (clearDiskBlocks pf r) (fun _ t =>
      Ran sc P s₀ g₀ t { g with hollow := insert r g.hollow } ∧
      Collects (s.withItem r (s.items r).clearDiskBlocks) t) s := by
  unfold clearDiskBlocks updateItem
  simp only [spec_bind, spec_modify]
  exact (step_collect_spec hran hinv hP (.clearDisk r hindexed) (fun _ h => h) rfl rfl).mono
    fun _ t h => ⟨h.1, h.2.1⟩

end

end StarCache
