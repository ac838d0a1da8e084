import StarCache.Transition.Invariant

/-!
# What runs leave alone

Properties that every run keeps, or every run that is not allowed the one action
that could break them.
-/

namespace StarCache

open Prog MachineInt

variable {pf : Platform} {sc : Scenario pf} {a : Action} {x y : World} {P : Action → Prop}

/-! ## Things that never change -/

structure Static (s t : State) : Prop where
  options : t.options = s.options
  memQuota : t.memSpace.quotaBytes = s.memSpace.quotaBytes
  layout : DiskSpaceManager.SameLayout s.diskSpace t.diskSpace
  clock : s.clock ≤ t.clock
  itemCount : s.itemCount ≤ t.itemCount
  item : ∀ r < s.itemCount, (t.items r).cacheKey = (s.items r).cacheKey ∧
    (t.items r).size = (s.items r).size
  segmentCount : s.segmentCount ≤ t.segmentCount
  segment : ∀ g < s.segmentCount, t.segments g = s.segments g
  trace : ∃ events, t.trace = s.trace ++ events

theorem Static.refl (s : State) : Static s s :=
  ⟨rfl, rfl, .refl _, Nat.le_refl _, Nat.le_refl _, fun _ _ => ⟨rfl, rfl⟩, Nat.le_refl _,
    fun _ _ => rfl, [], (List.append_nil _).symm⟩

theorem Static.trans {s t u : State} (h : Static s t) (h' : Static t u) : Static s u := by
  obtain ⟨first, hfirst⟩ := h.trace
  obtain ⟨second, hsecond⟩ := h'.trace
  refine ⟨h'.options.trans h.options, h'.memQuota.trans h.memQuota, h.layout.trans h'.layout,
    Nat.le_trans h.clock h'.clock, Nat.le_trans h.itemCount h'.itemCount, fun r hr => ?_,
    Nat.le_trans h.segmentCount h'.segmentCount, fun g hg => ?_, first ++ second, ?_⟩
  · obtain ⟨hkey, hsize⟩ := h.item r hr
    obtain ⟨hkey', hsize'⟩ := h'.item r (Nat.lt_of_lt_of_le hr h.itemCount)
    exact ⟨hkey'.trans hkey, hsize'.trans hsize⟩
  · rw [h'.segment g (Nat.lt_of_lt_of_le hg h.segmentCount), h.segment g hg]
  · rw [hsecond, hfirst, List.append_assoc]

theorem Static.hasDiskLayer {s t : State} (h : Static s t) : t.hasDiskLayer = s.hasDiskLayer := by
  unfold State.hasDiskLayer
  rw [h.options]

theorem Static.mem_trace {s t : State} (h : Static s t) {e : Event} (he : e ∈ s.trace) :
    e ∈ t.trace := by
  obtain ⟨events, htrace⟩ := h.trace
  rw [htrace]
  exact List.mem_append_left _ he

/-- Only the things that may change have changed. -/
theorem Static.of_eq {s t : State} (hoptions : t.options = s.options)
    (hquota : t.memSpace.quotaBytes = s.memSpace.quotaBytes)
    (hlayout : DiskSpaceManager.SameLayout s.diskSpace t.diskSpace) (hclock : s.clock ≤ t.clock)
    (hitemCount : t.itemCount = s.itemCount) (hitem : ∀ r, (t.items r).cacheKey =
      (s.items r).cacheKey ∧ (t.items r).size = (s.items r).size)
    (hsegmentCount : t.segmentCount = s.segmentCount) (hsegments : t.segments = s.segments)
    (htrace : ∃ events, t.trace = s.trace ++ events) : Static s t :=
  ⟨hoptions, hquota, hlayout, hclock, Nat.le_of_eq hitemCount.symm, fun r _ => hitem r,
    Nat.le_of_eq hsegmentCount.symm, fun _ _ => by rw [hsegments], htrace⟩

theorem Static.withItem {s : State} {r : ItemRef} {item : CacheItem}
    (hkey : item.cacheKey = (s.items r).cacheKey) (hsize : item.size = (s.items r).size) :
    Static s (s.withItem r item) := by
  refine .of_eq rfl rfl (.refl _) (Nat.le_refl _) rfl (fun r' => ?_) rfl rfl
    ⟨[], (List.append_nil _).symm⟩
  rw [State.withItem_items]
  split
  next heq => rw [hkey, hsize, heq]; exact ⟨rfl, rfl⟩
  next => exact ⟨rfl, rfl⟩

theorem Step.static (hstep : Step sc a x y) : Static x.state y.state := by
  have hnil : ∀ trace : List Event, ∃ events, trace = trace ++ events :=
    fun trace => ⟨[], (List.append_nil _).symm⟩
  cases hstep with
  | idle _ _ _ _ _ hclock _ _ hlayout hquota =>
      exact .of_eq rfl hquota hlayout hclock rfl (fun _ => ⟨rfl, rfl⟩) rfl rfl (hnil _)
  | newItem _ _ _ _ _ _ hquota =>
      refine ⟨rfl, hquota, .refl _, Nat.le_refl _, Nat.le_succ _, fun r hr => ?_, Nat.le_refl _,
        fun _ _ => rfl, hnil _⟩
      dsimp only
      rw [Function.update_of_ne (Nat.ne_of_lt hr)]
      exact ⟨rfl, rfl⟩
  | newSegment _ _ _ hquota =>
      exact ⟨rfl, hquota, .refl _, Nat.le_refl _, Nat.le_refl _, fun _ _ => ⟨rfl, rfl⟩, Nat.le_succ _,
        fun g hg => Function.update_of_ne (Nat.ne_of_lt hg) .., hnil _⟩
  | newBlock _ _ _ _ hclock _ hlayout =>
      exact .of_eq rfl rfl hlayout hclock rfl (fun _ => ⟨rfl, rfl⟩) rfl rfl (hnil _)
  | collect heffect _ =>
      have heq := heffect.eq
      refine .of_eq ?_ heffect.quota heffect.layout ?_ ?_ (fun r => ?_) ?_ ?_ ?_
      all_goals rw [heq]
      · exact ⟨rfl, rfl⟩
      · exact hnil _
  | write _ _ _ hclock _ =>
      exact .of_eq rfl rfl (.refl _) hclock rfl (fun _ => ⟨rfl, rfl⟩) rfl rfl (hnil _)
  | emit | clearing | deleting | memTrack | memEvict | diskTrack | diskEvict =>
      exact .of_eq rfl rfl (.refl _) (Nat.le_refl _) rfl (fun _ => ⟨rfl, rfl⟩) rfl rfl ⟨_, rfl⟩
  | hold | leave | touchMem | memUntrack | touchDisk | diskUntrack | pinMem | pinDisk | publish =>
      exact .of_eq rfl rfl (.refl _) (Nat.le_refl _) rfl (fun _ => ⟨rfl, rfl⟩) rfl rfl (hnil _)
  | attachMem | dropMem | attachDisk | clearBlock | clearDisk | setPinned =>
      exact .withItem rfl rfl
  | @expire s _ id r released | @remove s _ id r released =>
      have hitem : Static s (s.withItem r { s.items r with released }) := .withItem rfl rfl
      exact hitem.trans
        (.of_eq rfl rfl (.refl _) (Nat.le_refl _) rfl (fun _ => ⟨rfl, rfl⟩) rfl rfl (hnil _))
  | settle => exact .refl _

theorem Runs.static (h : Runs sc P x y) : Static x.state y.state :=
  h.relation (fun _ => True) (fun x y => Static x.state y.state) (fun _ _ _ _ _ h => h)
    (fun _ => .refl _) (fun _ _ _ => .trans) (fun _ _ _ _ hstep _ => hstep.static) trivial

/-- Items come from creation only. -/
theorem Step.itemCount (hstep : Step sc a x y) (ha : a ≠ .create) :
    y.state.itemCount = x.state.itemCount := by
  cases hstep with
  | newItem => exact absurd rfl ha
  | collect heffect _ => rw [heffect.eq]
  | _ => rfl

theorem Runs.itemCount (h : Runs sc P x y) (hP : ¬ P .create) :
    y.state.itemCount = x.state.itemCount :=
  h.invariant (fun z => z.state.itemCount = x.state.itemCount)
    (fun _ _ _ ha hstep heq => (hstep.itemCount fun hc => hP (hc ▸ ha)).trans heq) rfl

/-! ## The index -/

/-- Only publication adds to the index. -/
theorem Step.find (hstep : Step sc a x y) {id : CacheId} {r : ItemRef} (ha : a ≠ .publish id)
    (hfind : y.state.find id = some r) : x.state.find id = some r := by
  cases hstep with
  | collect heffect _ =>
      rw [heffect.eq] at hfind
      exact hfind
  | expire id' _ _ _ _ | remove id' _ _ _ =>
      have hfind' := (State.find_erase id' id).symm.trans hfind
      split at hfind'
      next => cases hfind'
      next => exact hfind'
  | publish id' r' _ _ _ =>
      rw [State.find_insert] at hfind
      split at hfind
      next heq => exact (ha (by rw [heq])).elim
      next => exact hfind
  | _ => exact hfind

theorem Runs.find (h : Runs sc P x y) {id : CacheId} {r : ItemRef}
    (hP : ¬ P (.publish id)) (hfind : y.state.find id = some r) : x.state.find id = some r :=
  h.invariant (fun z => z.state.find id = some r → x.state.find id = some r)
    (fun _ _ _ ha hstep hz hfind => hz (hstep.find (fun heq => hP (heq ▸ ha)) hfind))
    (fun hfind => hfind) hfind

theorem Runs.find_none (h : Runs sc P x y) {id : CacheId} (hP : ¬ P (.publish id))
    (hnone : x.state.find id = none) : y.state.find id = none := by
  cases hfind : y.state.find id with
  | none => rfl
  | some r =>
      rw [h.find hP hfind] at hnone
      cases hnone

/-- Pinning is an action of its own. -/
theorem Step.pinned (hstep : Step sc a x y) {r : ItemRef} (hr : r < x.state.itemCount)
    (ha : a ≠ .pin r) : (y.state.items r).pinned = (x.state.items r).pinned := by
  have hitem : ∀ (s : State) (r' : ItemRef) (item : CacheItem),
      item.pinned = (s.items r').pinned →
        ((s.withItem r' item).items r).pinned = (s.items r).pinned := by
    intro s r' item heq
    rw [State.withItem_items]
    split
    next hr => rw [heq, hr]
    next => rfl
  cases hstep with
  | newItem =>
      dsimp only
      rw [Function.update_of_ne (Nat.ne_of_lt hr)]
  | collect heffect _ => rw [heffect.eq]
  | attachMem | dropMem | attachDisk | clearBlock | clearDisk => exact hitem _ _ _ rfl
  | expire | remove => exact hitem _ _ _ rfl
  | setPinned r' pinned =>
      rw [State.withItem_items, if_neg fun heq => ha (by rw [heq])]
  | _ => rfl

theorem Runs.pinned (h : Runs sc P x y) {r : ItemRef} (hr : r < x.state.itemCount)
    (hP : ¬ P (.pin r)) : (y.state.items r).pinned = (x.state.items r).pinned := by
  have hboth : r < y.state.itemCount ∧ (y.state.items r).pinned = (x.state.items r).pinned := by
    refine h.invariant
      (fun z => r < z.state.itemCount ∧ (z.state.items r).pinned = (x.state.items r).pinned) ?_
      ⟨hr, rfl⟩
    rintro a z w ha hstep ⟨hlt, heq⟩
    exact ⟨Nat.lt_of_lt_of_le hlt hstep.static.itemCount,
      (hstep.pinned hlt fun heq => hP (heq ▸ ha)).trans heq⟩
  exact hboth.2

/-! ## An item that is not in the index -/

theorem Step.items (hstep : Step sc a x y) {r : ItemRef} (hr : r < x.state.itemCount)
    (hprivate : ∀ id, x.state.find id ≠ some r) (hchange : a ≠ .change r) (hfill : a ≠ .fill r)
    (hpin : a ≠ .pin r) :
    y.state.items r = x.state.items r := by
  have hitem : ∀ (s : State) (r' : ItemRef) (item : CacheItem), r ≠ r' →
      (s.withItem r' item).items r = s.items r := fun s r' item hne => by
    rw [State.withItem_items, if_neg hne]
  cases hstep with
  | newItem => exact Function.update_of_ne (Nat.ne_of_lt hr) ..
  | collect heffect _ => rw [heffect.eq]
  | attachMem => exact hitem _ _ _ fun heq => hfill (by rw [heq])
  | dropMem | attachDisk | clearBlock | clearDisk =>
      exact hitem _ _ _ fun heq => hchange (by rw [heq])
  | setPinned => exact hitem _ _ _ fun heq => hpin (by rw [heq])
  | expire _ _ _ hfound _ | remove _ _ _ hfound =>
      exact hitem _ _ _ fun heq => hprivate _ (heq ▸ hfound)
  | _ => rfl

/-- An item that is not in the index, and that the run may not change. -/
theorem Runs.items (h : Runs sc P x y) {r : ItemRef} (hr : r < x.state.itemCount)
    (hprivate : ∀ id, x.state.find id ≠ some r) (hpublish : ∀ id, ¬ P (.publish id))
    (hchange : ¬ P (.change r)) (hfill : ¬ P (.fill r)) (hpin : ¬ P (.pin r)) :
    y.state.items r = x.state.items r ∧ ∀ id, y.state.find id ≠ some r := by
  refine ⟨?_, fun id hfind => hprivate id (h.find (hpublish id) hfind)⟩
  have hall : r < y.state.itemCount ∧ (∀ id, y.state.find id ≠ some r) ∧
      y.state.items r = x.state.items r := by
    refine h.invariant (fun z => r < z.state.itemCount ∧ (∀ id, z.state.find id ≠ some r) ∧
      z.state.items r = x.state.items r) ?_ ⟨hr, hprivate, rfl⟩
    rintro a z w ha hstep ⟨hlt, hunindexed, heq⟩
    refine ⟨Nat.lt_of_lt_of_le hlt hstep.static.itemCount, fun id hfind => ?_, ?_⟩
    · exact hunindexed id (hstep.find (fun heq => hpublish id (heq ▸ ha)) hfind)
    · exact (hstep.items hlt hunindexed (fun heq => hchange (heq ▸ ha))
        (fun heq => hfill (heq ▸ ha)) fun heq => hpin (heq ▸ ha)).trans heq
  exact hall.2.2

/-! ## Keys in use -/

/-- Without a touch, no key comes into use and none goes out of use while its id is
in the index. -/
theorem Step.memBusy (hstep : Step sc a x y) (hinv : Inv sc x) {key : BlockKey}
    (ha : a ≠ .touchMem) (hpin : ∀ r, a ≠ .pin r) :
    (y.state.MemBusy pf key → x.state.MemBusy pf key) ∧
      (x.state.MemBusy pf key → y.state.MemBusy pf key ∨ x.state.find key.cacheId = none) := by
  have hpolicy := hinv.wf.memTracker
  have hsame : ∀ {s t : State}, t.memTracker = s.memTracker →
      (t.MemBusy pf key → s.MemBusy pf key) ∧
        (s.MemBusy pf key → t.MemBusy pf key ∨ s.find key.cacheId = none) := by
    intro s t heq
    unfold State.MemBusy State.MemTracked
    rw [heq]
    exact ⟨fun h => h, Or.inl⟩
  cases hstep with
  | collect heffect _ =>
      have heq := heffect.eq
      exact hsame (by rw [heq])
  | touchMem => exact (ha rfl).elim
  | pinMem _ r _ _ => exact (hpin r rfl).elim
  | memTrack key' size hfree =>
      obtain ⟨_, htracked, hidle⟩ := hpolicy.add key' size
      unfold State.MemBusy State.MemTracked at *
      dsimp only at *
      rw [htracked, hidle]
      refine ⟨fun ⟨hin, hnot⟩ => ?_, fun ⟨hin, hnot⟩ => ?_⟩
      · rw [not_or] at hnot
        exact ⟨hin.resolve_left hnot.1, hnot.2⟩
      · by_cases heq : key = key'
        · subst heq
          exact Or.inr (hfree.resolve_left fun hfree => hfree ⟨hin, hnot⟩)
        · exact Or.inl ⟨Or.inr hin, by rw [not_or]; exact ⟨heq, hnot⟩⟩
  | memUntrack key' hgone =>
      obtain ⟨_, htracked, hidle⟩ := hpolicy.remove key'
      unfold State.MemBusy State.MemTracked at *
      dsimp only at *
      rw [htracked, hidle]
      refine ⟨fun ⟨⟨hin, hne⟩, hnot⟩ => ⟨hin, fun h => hnot ⟨h, hne⟩⟩, fun ⟨hin, hnot⟩ => ?_⟩
      by_cases heq : key = key'
      · subst heq
        exact Or.inr hgone
      · exact Or.inl ⟨⟨hin, heq⟩, fun h => hnot h.1⟩
  | memEvict keys memTracker _ hidle htracked hidle_iff =>
      unfold State.MemBusy State.MemTracked at *
      dsimp only at *
      rw [htracked, hidle_iff]
      refine ⟨fun ⟨⟨hin, hne⟩, hnot⟩ => ⟨hin, fun h => hnot ⟨h, hne⟩⟩, fun ⟨hin, hnot⟩ => ?_⟩
      exact Or.inl ⟨⟨hin, fun hmem => hnot (hidle key hmem)⟩, fun h => hnot h.1⟩
  | _ => exact hsame rfl

theorem Step.diskBusy (hstep : Step sc a x y) (hinv : Inv sc x) {id : CacheId}
    (ha : a ≠ .touchDisk) (hpin : ∀ r, a ≠ .pin r) :
    (y.state.DiskBusy pf id → x.state.DiskBusy pf id) ∧
      (x.state.DiskBusy pf id → y.state.DiskBusy pf id ∨ x.state.find id = none) := by
  have hpolicy := hinv.wf.diskTracker
  have hsame : ∀ {s t : State}, t.diskTracker = s.diskTracker →
      (t.DiskBusy pf id → s.DiskBusy pf id) ∧
        (s.DiskBusy pf id → t.DiskBusy pf id ∨ s.find id = none) := by
    intro s t heq
    unfold State.DiskBusy State.DiskTracked
    rw [heq]
    exact ⟨fun h => h, Or.inl⟩
  cases hstep with
  | collect heffect _ =>
      have heq := heffect.eq
      exact hsame (by rw [heq])
  | touchDisk => exact (ha rfl).elim
  | pinDisk _ r _ _ => exact (hpin r rfl).elim
  | diskTrack id' size hfree _ =>
      obtain ⟨_, htracked, hidle⟩ := hpolicy.add id' size
      unfold State.DiskBusy State.DiskTracked at *
      dsimp only at *
      rw [htracked, hidle]
      refine ⟨fun ⟨hin, hnot⟩ => ?_, fun ⟨hin, hnot⟩ => ?_⟩
      · rw [not_or] at hnot
        exact ⟨hin.resolve_left hnot.1, hnot.2⟩
      · by_cases heq : id = id'
        · subst heq
          exact Or.inr (hfree.resolve_left fun hfree => hfree ⟨hin, hnot⟩)
        · exact Or.inl ⟨Or.inr hin, by rw [not_or]; exact ⟨heq, hnot⟩⟩
  | diskUntrack id' hgone =>
      obtain ⟨_, htracked, hidle⟩ := hpolicy.remove id'
      unfold State.DiskBusy State.DiskTracked at *
      dsimp only at *
      rw [htracked, hidle]
      refine ⟨fun ⟨⟨hin, hne⟩, hnot⟩ => ⟨hin, fun h => hnot ⟨h, hne⟩⟩, fun ⟨hin, hnot⟩ => ?_⟩
      by_cases heq : id = id'
      · subst heq
        exact Or.inr hgone
      · exact Or.inl ⟨⟨hin, heq⟩, fun h => hnot h.1⟩
  | diskEvict ids diskTracker _ hidle htracked hidle_iff =>
      unfold State.DiskBusy State.DiskTracked at *
      dsimp only at *
      rw [htracked, hidle_iff]
      refine ⟨fun ⟨⟨hin, hne⟩, hnot⟩ => ⟨hin, fun h => hnot ⟨h, hne⟩⟩, fun ⟨hin, hnot⟩ => ?_⟩
      exact Or.inl ⟨⟨hin, fun hmem => hnot (hidle id hmem)⟩, fun h => hnot h.1⟩
  | _ => exact hsame rfl

theorem Runs.not_memBusy (h : Runs sc P x y) (hinv : Inv sc x) (hP : ¬ P .touchMem)
    (hpin : ∀ r, ¬ P (.pin r))
    {key : BlockKey} (hfree : ¬ x.state.MemBusy pf key) : ¬ y.state.MemBusy pf key := by
  have hboth : Inv sc y ∧ ¬ y.state.MemBusy pf key := by
    refine h.invariant (fun z => Inv sc z ∧ ¬ z.state.MemBusy pf key) ?_ ⟨hinv, hfree⟩
    rintro a z w ha hstep ⟨hz, hfree⟩
    exact ⟨hstep.inv hz, fun hbusy => hfree ((hstep.memBusy hz (fun heq => hP (heq ▸ ha))
      fun r heq => hpin r (heq ▸ ha)).1 hbusy)⟩
  exact hboth.2

theorem Runs.memBusy (h : Runs sc P x y) (hinv : Inv sc x) (hP : ¬ P .touchMem)
    (hpin : ∀ r, ¬ P (.pin r))
    {key : BlockKey} (hpublish : ¬ P (.publish key.cacheId))
    (hbusy : x.state.MemBusy pf key ∨ x.state.find key.cacheId = none) :
    y.state.MemBusy pf key ∨ y.state.find key.cacheId = none := by
  have hboth : Inv sc y ∧ (y.state.MemBusy pf key ∨ y.state.find key.cacheId = none) := by
    refine h.invariant
      (fun z => Inv sc z ∧ (z.state.MemBusy pf key ∨ z.state.find key.cacheId = none)) ?_
      ⟨hinv, hbusy⟩
    rintro a z w ha hstep ⟨hz, hbusy⟩
    have hnone : z.state.find key.cacheId = none → w.state.find key.cacheId = none :=
      Runs.find_none (Moves.single ha hstep) hpublish
    refine ⟨hstep.inv hz, hbusy.elim (fun hbusy => ?_) fun hgone => Or.inr (hnone hgone)⟩
    exact ((hstep.memBusy hz (fun heq => hP (heq ▸ ha))
      fun r heq => hpin r (heq ▸ ha)).2 hbusy).imp_right hnone
  exact hboth.2

theorem Runs.not_diskBusy (h : Runs sc P x y) (hinv : Inv sc x) (hP : ¬ P .touchDisk)
    (hpin : ∀ r, ¬ P (.pin r))
    {id : CacheId} (hfree : ¬ x.state.DiskBusy pf id) : ¬ y.state.DiskBusy pf id := by
  have hboth : Inv sc y ∧ ¬ y.state.DiskBusy pf id := by
    refine h.invariant (fun z => Inv sc z ∧ ¬ z.state.DiskBusy pf id) ?_ ⟨hinv, hfree⟩
    rintro a z w ha hstep ⟨hz, hfree⟩
    exact ⟨hstep.inv hz, fun hbusy => hfree ((hstep.diskBusy hz (fun heq => hP (heq ▸ ha))
      fun r heq => hpin r (heq ▸ ha)).1 hbusy)⟩
  exact hboth.2

theorem Runs.diskBusy (h : Runs sc P x y) (hinv : Inv sc x) (hP : ¬ P .touchDisk)
    (hpin : ∀ r, ¬ P (.pin r))
    {id : CacheId} (hpublish : ¬ P (.publish id))
    (hbusy : x.state.DiskBusy pf id ∨ x.state.find id = none) :
    y.state.DiskBusy pf id ∨ y.state.find id = none := by
  have hboth : Inv sc y ∧ (y.state.DiskBusy pf id ∨ y.state.find id = none) := by
    refine h.invariant (fun z => Inv sc z ∧ (z.state.DiskBusy pf id ∨ z.state.find id = none)) ?_
      ⟨hinv, hbusy⟩
    rintro a z w ha hstep ⟨hz, hbusy⟩
    have hnone : z.state.find id = none → w.state.find id = none :=
      Runs.find_none (Moves.single ha hstep) hpublish
    refine ⟨hstep.inv hz, hbusy.elim (fun hbusy => ?_) fun hgone => Or.inr (hnone hgone)⟩
    exact ((hstep.diskBusy hz (fun heq => hP (heq ▸ ha))
      fun r heq => hpin r (heq ▸ ha)).2 hbusy).imp_right hnone
  exact hboth.2

/-- Without a touch, an id becomes free to be evicted only when it is tracked. -/
theorem Step.diskIdle (hstep : Step sc a x y) (hinv : Inv sc x) {id : CacheId}
    (htouch : a ≠ .touchDisk) (htrack : a ≠ .track id) (hpin : ∀ r, a ≠ .pin r)
    (hidle : y.state.diskTracker.Idle pf.cacheIdHash id) :
    x.state.diskTracker.Idle pf.cacheIdHash id := by
  have hpolicy := hinv.wf.diskTracker
  cases hstep with
  | collect heffect _ =>
      rw [heffect.eq] at hidle
      exact hidle
  | touchDisk => exact (htouch rfl).elim
  | pinDisk _ r _ _ => exact (hpin r rfl).elim
  | diskTrack id' size _ _ =>
      obtain ⟨_, _, hidle_iff⟩ := hpolicy.add id' size
      cases (hidle_iff id).mp hidle with
      | inl heq => exact (htrack (by rw [heq])).elim
      | inr hold => exact hold
  | diskUntrack id' _ =>
      obtain ⟨_, _, hidle_iff⟩ := hpolicy.remove id'
      exact ((hidle_iff id).mp hidle).1
  | diskEvict _ _ _ _ _ hidle_iff => exact ((hidle_iff id).mp hidle).1
  | _ => exact hidle

/-! ## What an operation may do -/

/-- The item a set is writing, and its id. -/
structure Own where
  item : ItemRef
  id : CacheId

/-- Neither the item nor the id of the set is in the index. -/
def State.Private (s : State) (own : Option Own) : Prop :=
  ∀ o ∈ own, s.find o.id = none ∧ ∀ id, s.find id ≠ some o.item

theorem State.Private.id_ne {s : State} {own : Option Own} (h : s.Private own) {id : CacheId}
    {r : ItemRef} (hfind : s.find id = some r) : ∀ o ∈ own, id ≠ o.id := by
  rintro o ho rfl
  rw [(h o ho).1] at hfind
  cases hfind

theorem State.Private.item_ne {s : State} {own : Option Own} (h : s.Private own) {id : CacheId}
    {r : ItemRef} (hfind : s.find id = some r) : ∀ o ∈ own, r ≠ o.item := by
  rintro o ho rfl
  exact (h o ho).2 id hfind

namespace Action

/-- What a disk eviction may do. -/
def InDisk (own : Option Own) : Action → Prop
  | .other => True
  | .track id | .untrack id => ∀ o ∈ own, id ≠ o.id
  | .change r => ∀ o ∈ own, r ≠ o.item
  | _ => False

/-- What a memory eviction may do. -/
def InEvict (own : Option Own) : Action → Prop
  | .touchDisk => True
  | a => a.InDisk own

/-- What a promotion may do with the block in use. -/
def InPromote : Action → Prop
  | .fill _ => True
  | a => a.InEvict none

/-- What a read may do. -/
def InRead : Action → Prop
  | .touchMem => True
  | a => a.InPromote

theorem InDisk.inEvict {own : Option Own} {a : Action} (h : a.InDisk own) : a.InEvict own := by
  cases a with
  | touchDisk => trivial
  | _ => exact h

theorem InEvict.inPromote {a : Action} (h : a.InEvict none) : a.InPromote := by
  cases a with
  | fill _ => trivial
  | _ => exact h

theorem InPromote.inRead {a : Action} (h : a.InPromote) : a.InRead := by
  cases a with
  | touchMem => trivial
  | _ => exact h

end Action

/-! ## An item that is spared -/

/-- An item in the index that holds something, and that the step may not change. -/
theorem Step.spared (hstep : Step sc a x y) (hinv : Inv sc x) {own : Option Own} {o : Own}
    (ha : a.InDisk own) (ho : a.InDisk (some o)) (hfind : x.state.find o.id = some o.item)
    (hfull : (x.state.items o.item).blocks.all (·.isEmpty) = false) :
    y.state.items o.item = x.state.items o.item ∧ y.state.find o.id = some o.item := by
  have hother : ∀ r', a = .change r' → o.item ≠ r' := by
    intro r' heq
    subst heq
    exact fun h => ho o rfl h.symm
  have hitem : ∀ (s : State) (r' : ItemRef) (item : CacheItem), o.item ≠ r' →
      (s.withItem r' item).items o.item = s.items o.item := fun s r' item hne => by
    rw [State.withItem_items, if_neg hne]
  cases hstep with
  | newItem | touchDisk | touchMem | attachMem | setPinned | pinMem | pinDisk | remove | publish =>
      exact ha.elim
  | collect heffect _ =>
      rw [heffect.eq]
      exact ⟨rfl, hfind⟩
  | dropMem r' | attachDisk r' | clearBlock r' | clearDisk r' =>
      exact ⟨hitem _ _ _ (hother r' rfl), hfind⟩
  | @expire s g id' r' released hfound hempty =>
      have hne : o.item ≠ r' := by
        intro heq
        rw [heq] at hfull
        exact Bool.false_ne_true (hfull.symm.trans hempty)
      refine ⟨hitem _ _ _ hne, ?_⟩
      have hid : o.id ≠ id' := by
        intro heq
        rw [heq] at hfind
        exact hne (Option.some.inj (hfind.symm.trans hfound))
      exact (State.find_erase id' o.id).trans ((if_neg hid).trans hfind)
  | _ => exact ⟨rfl, hfind⟩

/-- The item and its place in the index, and that its id is not free to be evicted. -/
structure State.Spared (pf : Platform) (o : Own) (item : CacheItem) (s : State) : Prop where
  find : s.find o.id = some o.item
  item_eq : s.items o.item = item
  busy : ¬ s.diskTracker.Idle pf.cacheIdHash o.id

theorem Runs.spared (h : Runs sc P x y) (hinv : Inv sc x) {own : Option Own} {o : Own}
    (hP : ∀ a, P a → a.InDisk own ∧ a.InDisk (some o)) {item : CacheItem}
    (hfull : item.blocks.all (·.isEmpty) = false) (hx : x.state.Spared pf o item) :
    y.state.Spared pf o item := by
  have hboth : Inv sc y ∧ y.state.Spared pf o item := by
    apply h.invariant (fun z => Inv sc z ∧ z.state.Spared pf o item) _ ⟨hinv, hx⟩
    intro a z w ha hstep hz
    obtain ⟨hinvz, hz⟩ := hz
    obtain ⟨hown, ho⟩ := hP a ha
    obtain ⟨hitems, hfind⟩ := hstep.spared hinvz hown ho hz.find (by rw [hz.item_eq]; exact hfull)
    refine ⟨hstep.inv hinvz, hfind, hitems.trans hz.item_eq, ?_⟩
    intro hidle
    apply hz.busy
    apply hstep.diskIdle hinvz _ _ _ hidle
    · intro heq
      subst heq
      exact hown
    · intro heq
      subst heq
      exact ho o rfl rfl
    · intro r heq
      subst heq
      exact hown
  exact hboth.2

theorem State.Private.moves {s t : State} {g g' : Ghost} {own : Option Own} (h : s.Private own)
    (hmoves : Runs sc P ⟨s, g⟩ ⟨t, g'⟩) (hP : ∀ id, ¬ P (.publish id)) :
    t.Private own := fun o ho =>
  ⟨hmoves.find_none (hP _) (h o ho).1, fun id hfind => (h o ho).2 id (hmoves.find (hP _) hfind)⟩

/-- What a disk eviction has to do with the items it can meet, is allowed. -/
structure Evicts (sc : Scenario pf) (P : Action → Prop) (x : World) : Prop where
  other : P .other
  publish : ∀ id, ¬ P (.publish id)
  meets : ∀ y, Runs sc P x y → ∀ id r, y.state.diskTracker.Idle pf.cacheIdHash id →
    y.state.find id = some r → P (.change r) ∧ P (.untrack id)

theorem Evicts.runs (h : Evicts sc P x) (hruns : Runs sc P x y) : Evicts sc P y :=
  ⟨h.other, h.publish, fun z hz => h.meets z (hruns.trans hz)⟩

theorem State.Private.evicts {s : State} {g : Ghost} {own : Option Own} (h : s.Private own) :
    Evicts sc (Action.InDisk own) ⟨s, g⟩ where
  other := trivial
  publish _ h := h
  meets _ hruns _ _ _ hfind :=
    have hprivate := h.moves hruns fun _ h => h
    ⟨hprivate.item_ne hfind, hprivate.id_ne hfind⟩

/-- An eviction does not meet an item whose id is not free to be evicted. -/
theorem evicts_sparing {s : State} {g : Ghost} {own : Option Own} {o : Own} {item : CacheItem}
    (hinv : Inv sc ⟨s, g⟩) (hprivate : s.Private own) (hspared : s.Spared pf o item)
    (hfull : item.blocks.all (·.isEmpty) = false) :
    Evicts sc (fun a => a.InDisk own ∧ a.InDisk (some o)) ⟨s, g⟩ where
  other := ⟨trivial, trivial⟩
  publish _ h := h.1
  meets y hruns id r hidle hfind := by
    have hprivate' := hprivate.moves hruns fun _ h => h.1
    have hspared' := hruns.spared hinv (fun _ h => h) hfull hspared
    have hid : id ≠ o.id := by
      intro heq
      subst heq
      exact hspared'.busy hidle
    have hr : r ≠ o.item := by
      intro heq
      subst heq
      exact hid ((hinv.runs hruns).wf.find_inj hfind hspared'.find)
    refine ⟨⟨hprivate'.item_ne hfind, ?_⟩, hprivate'.id_ne hfind, ?_⟩
    · intro o' ho'
      cases ho'
      exact hr
    · intro o' ho'
      cases ho'
      exact hid

end StarCache
