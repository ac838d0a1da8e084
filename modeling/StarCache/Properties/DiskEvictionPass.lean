import StarCache.Refinement.Runs

/-!
# A pass over evicted disk items

The `View` of a state is what decides which objects live. On views a pass is a function
of the list of ids, and what it leaves of the disk blocks, of the index and of the used
bytes follows from the view alone.

The pass ends at the first id that is not in the index. That is harmless exactly when
no other id of the list has anything left to do.
-/

namespace StarCache

open Prog

/-- The index, the items and the variables of the running calls. -/
structure View where
  find : CacheId → Option ItemRef
  items : ItemRef → CacheItem
  segments : SegmentRef → BlockSegment
  locals : List Local

def State.view (s : State) : View := ⟨s.find, s.items, s.segments, s.locals⟩

namespace CacheItem

/-- Holds nothing but disk blocks. -/
def DiskOnly (item : CacheItem) : Prop := item.clearDiskBlocks.blocks.all (·.isEmpty) = true

instance (item : CacheItem) : Decidable item.DiskOnly := inferInstanceAs (Decidable (_ = true))

/-- What the eviction of its disk blocks leaves of an item. -/
def evicted (item : CacheItem) : CacheItem :=
  if item.DiskOnly then { item.clearDiskBlocks with released := true } else item.clearDiskBlocks

theorem clearDiskBlocks_idem (item : CacheItem) :
    item.clearDiskBlocks.clearDiskBlocks = item.clearDiskBlocks := by
  simp [clearDiskBlocks]

@[simp] theorem evicted_blocks (item : CacheItem) :
    item.evicted.blocks = item.clearDiskBlocks.blocks := by
  unfold evicted
  split <;> rfl

theorem diskOnly_evicted (item : CacheItem) : item.evicted.DiskOnly ↔ item.DiskOnly := by
  unfold DiskOnly
  rw [← clearDiskBlocks_idem item]
  unfold clearDiskBlocks
  rw [evicted_blocks]
  simp [clearDiskBlocks]

/-- A second eviction changes nothing. -/
theorem evicted_idem (item : CacheItem) : item.evicted.evicted = item.evicted := by
  unfold evicted
  split
  next h =>
    have h' : CacheItem.DiskOnly { item.clearDiskBlocks with released := true } := by
      simpa [DiskOnly, clearDiskBlocks] using h
    rw [if_pos h']
    simp [clearDiskBlocks]
  next h =>
    have h' : ¬ item.clearDiskBlocks.DiskOnly := by
      simpa [DiskOnly, clearDiskBlocks] using h
    rw [if_neg h', clearDiskBlocks_idem]

/-- The eviction has something to do: a disk block to give up, or an item to release. -/
def Affected (item : CacheItem) : Prop :=
  (∃ b ∈ item.blocks, b.diskBlockItem ≠ none) ∨ item.blocks.all (·.isEmpty) = true

theorem clearDiskBlocks_eq_self {item : CacheItem}
    (h : ∀ b ∈ item.blocks, b.diskBlockItem = none) : item.clearDiskBlocks = item := by
  have hmap : item.blocks.map (fun b => { b with diskBlockItem := none }) = item.blocks := by
    refine (List.map_congr_left fun b hb => ?_).trans (List.map_id _)
    rw [← h b hb]
    rfl
  unfold clearDiskBlocks
  rw [hmap]

theorem evicted_eq_self {item : CacheItem} (h : ¬ item.Affected) :
    item.evicted = item ∧ ¬ item.DiskOnly := by
  unfold Affected at h
  push Not at h
  obtain ⟨hdisk, hne⟩ := h
  have hsame := clearDiskBlocks_eq_self hdisk
  have hmixed : ¬ item.DiskOnly := by
    unfold DiskOnly
    rw [hsame]
    simpa using hne
  refine ⟨?_, hmixed⟩
  unfold evicted
  rw [if_neg hmixed, hsame]

end CacheItem

namespace View

/-- The item of `id` is released when its disk blocks are evicted. -/
def Releases (v : View) (id : CacheId) : Prop := ∃ r ∈ v.find id, (v.items r).DiskOnly

instance (v : View) (id : CacheId) : Decidable (v.Releases id) :=
  match h : v.find id with
  | none => isFalse (by simp [Releases, h])
  | some r => decidable_of_iff (v.items r).DiskOnly (by simp [Releases, h])

/-- One round of the pass, for the item `r` that is found under `id`. -/
def evict (v : View) (id : CacheId) (r : ItemRef) : View :=
  { v with
    find := if (v.items r).DiskOnly then Function.update v.find id none else v.find
    items := Function.update v.items r (v.items r).evicted }

/-- The pass. -/
def evictAll : List CacheId → View → View
  | [], v => v
  | id :: rest, v =>
      match v.find id with
      | none => v
      | some r => evictAll rest (v.evict id r)

/-- The outcome once the ids `done` have been processed, in whatever order. -/
def cleared (v : View) (done : List CacheId) : View :=
  { v with
    find := fun id => if id ∈ done ∧ v.Releases id then none else v.find id
    items := fun r => if ∃ id ∈ done, v.find id = some r then (v.items r).evicted else v.items r }

theorem cleared_nil (v : View) : v.cleared [] = v := by
  simp [cleared]

theorem cleared_congr (v : View) {xs ys : List CacheId} (h : ∀ id, id ∈ xs ↔ id ∈ ys) :
    v.cleared xs = v.cleared ys := by
  simp only [cleared, h]

/-- An item is indexed under one id. -/
def Injective (v : View) : Prop :=
  ∀ id id' r, v.find id = some r → v.find id' = some r → id = id'

theorem releases_iff {v : View} {id : CacheId} {r : ItemRef} (hfind : v.find id = some r) :
    v.Releases id ↔ (v.items r).DiskOnly := by
  simp [Releases, hfind]

theorem cleared_find {v : View} {done : List CacheId} {id : CacheId} {r : ItemRef}
    (h : (v.cleared done).find id = some r) :
    v.find id = some r ∧ ¬ (id ∈ done ∧ v.Releases id) := by
  unfold cleared at h
  dsimp only at h
  split at h
  next => cases h
  next hkept => exact ⟨h, hkept⟩

/-- One id more is processed. -/
theorem evict_cleared {v : View} {done : List CacheId} {id : CacheId}
    {r : ItemRef} (h : (v.cleared done).find id = some r) :
    (v.cleared done).evict id r = v.cleared (id :: done) := by
  obtain ⟨hfind, hkept⟩ := cleared_find h
  have hreleases := releases_iff hfind
  -- an item that was evicted before has kept a memory block
  have hitem : ((v.cleared done).items r).evicted = (v.items r).evicted ∧
      (((v.cleared done).items r).DiskOnly ↔ (v.items r).DiskOnly) := by
    unfold cleared
    dsimp only
    split
    next => exact ⟨CacheItem.evicted_idem _, CacheItem.diskOnly_evicted _⟩
    next => exact ⟨rfl, Iff.rfl⟩
  unfold evict
  rw [hitem.1]
  simp only [hitem.2]
  unfold cleared
  simp only [View.mk.injEq, and_true]
  refine ⟨?_, ?_⟩
  · funext id'
    by_cases hid : id' = id
    · subst hid
      by_cases hdisk : (v.items r).DiskOnly
      · simp [hdisk, hreleases]
      · simp [hdisk, hreleases]
    · have hupdate : (if (v.items r).DiskOnly then Function.update (fun id =>
          if id ∈ done ∧ v.Releases id then none else v.find id) id none else fun id =>
          if id ∈ done ∧ v.Releases id then none else v.find id) id' =
          if id' ∈ done ∧ v.Releases id' then none else v.find id' := by
        split
        next => rw [Function.update_of_ne hid]
        next => rfl
      rw [hupdate]
      simp [hid]
  · funext r'
    by_cases hr : r' = r
    · subst hr
      simp [hfind]
    · have hother : v.find id ≠ some r' := by
        rw [hfind]
        simpa using Ne.symm hr
      rw [Function.update_of_ne hr]
      simp [hother]

/-- The ids that a pass over `ids` gets to process after it has processed `done`, with these. -/
def processed (v : View) : List CacheId → List CacheId → List CacheId
  | done, [] => done
  | done, id :: rest =>
      if v.find id = none ∨ id ∈ done ∧ v.Releases id then done else processed v (id :: done) rest

theorem evictAll_cleared (v : View) (ids done : List CacheId) :
    evictAll ids (v.cleared done) = v.cleared (v.processed done ids) := by
  induction ids generalizing done with
  | nil => rfl
  | cons id rest ih =>
      unfold evictAll processed
      cases h : (v.cleared done).find id with
      | none =>
          have hmissing : v.find id = none ∨ id ∈ done ∧ v.Releases id := by
            unfold cleared at h
            dsimp only at h
            split at h
            next hgone => exact Or.inr hgone
            next => exact Or.inl h
          rw [if_pos hmissing]
      | some r =>
          obtain ⟨hfind, hkept⟩ := cleared_find h
          have hthere : ¬ (v.find id = none ∨ id ∈ done ∧ v.Releases id) := by
            rintro (hnone | hgone)
            · rw [hfind] at hnone
              cases hnone
            · exact hkept hgone
          rw [if_neg hthere, ← ih, ← evict_cleared h]

/-- A pass ends early at this id: it is missing, or its item goes when it is met first and
it is met again. -/
def Stops (v : View) (ids : List CacheId) (id : CacheId) : Prop :=
  v.find id = none ∨ 2 ≤ ids.count id ∧ v.Releases id

/-- The pass has something to do for this id. -/
def Affects (v : View) (id : CacheId) : Prop := ∃ r ∈ v.find id, (v.items r).Affected

/-- Nothing is left to do for an id at which, or for the ids after which, a pass ends. -/
def Harmless (v : View) (ids : List CacheId) : Prop :=
  ∀ id ∈ ids, v.Stops ids id → ∀ id' ∈ ids, id' ≠ id → ¬ v.Affects id'

theorem Harmless.perm {v : View} {xs ys : List CacheId} (h : v.Harmless xs) (hperm : xs.Perm ys) :
    v.Harmless ys := by
  intro id hid hstops id' hid' hne
  refine h id (hperm.mem_iff.mpr hid) ?_ id' (hperm.mem_iff.mpr hid') hne
  unfold Stops at hstops ⊢
  rwa [hperm.count_eq]

/-- Ids for which there is nothing to do may be added. -/
theorem cleared_append {v : View} {done rest : List CacheId}
    (h : ∀ id ∈ rest, id ∈ done ∨ ¬ v.Affects id) :
    v.cleared (rest ++ done) = v.cleared done := by
  have hsame : ∀ id ∈ rest, id ∈ done ∨ ∀ r, v.find id = some r →
      (v.items r).evicted = v.items r ∧ ¬ (v.items r).DiskOnly := by
    intro id hid
    refine (h id hid).imp_right fun hidle r hfind => CacheItem.evicted_eq_self fun haffected => ?_
    exact hidle ⟨r, hfind, haffected⟩
  unfold cleared
  simp only [View.mk.injEq, and_true]
  refine ⟨?_, ?_⟩
  · funext id
    have hiff : id ∈ rest ++ done ∧ v.Releases id ↔ id ∈ done ∧ v.Releases id := by
      refine and_congr_left fun ⟨r, hfind, hdisk⟩ => ?_
      rw [List.mem_append]
      refine ⟨fun hid => ?_, Or.inr⟩
      rcases hid with hid | hid
      · exact (hsame id hid).resolve_right fun hidle => (hidle r hfind).2 hdisk
      · exact hid
    simp only [hiff]
  · funext r
    by_cases hdone : ∃ id ∈ done, v.find id = some r
    · obtain ⟨id, hid, hfind⟩ := hdone
      rw [if_pos ⟨id, List.mem_append_right _ hid, hfind⟩, if_pos ⟨id, hid, hfind⟩]
    · rw [if_neg hdone]
      split
      next hrest =>
        obtain ⟨id, hid, hfind⟩ := hrest
        have hnot : id ∉ done := fun hid' => hdone ⟨id, hid', hfind⟩
        have hid' := (List.mem_append.mp hid).resolve_right hnot
        exact (((hsame id hid').resolve_left hnot) r hfind).1
      next => rfl

/-- Where the pass ends. -/
theorem processed_eq (v : View) (ids done : List CacheId) :
    ∃ front back, ids = front ++ back ∧ v.processed done ids = front.reverse ++ done ∧
      ∀ id ∈ back.head?, v.find id = none ∨ id ∈ front.reverse ++ done ∧ v.Releases id := by
  induction ids generalizing done with
  | nil => exact ⟨[], [], rfl, rfl, by simp⟩
  | cons id rest ih =>
      unfold processed
      split
      next hstop =>
        refine ⟨[], id :: rest, rfl, rfl, ?_⟩
        rintro _ ⟨⟩
        exact hstop
      next =>
        obtain ⟨front, back, rfl, heq, hback⟩ := ih (id :: done)
        refine ⟨id :: front, back, rfl, ?_, ?_⟩
        · rw [heq, List.reverse_cons, List.append_assoc, List.singleton_append]
        · rw [List.reverse_cons, List.append_assoc, List.singleton_append]
          exact hback

/-- A pass that ends early leaves nothing undone if that is harmless. -/
theorem Harmless.evictAll {v : View} {ids : List CacheId} (h : v.Harmless ids) :
    evictAll ids v = v.cleared ids := by
  obtain ⟨front, back, rfl, heq, hback⟩ := v.processed_eq ids []
  have hall := evictAll_cleared v (front ++ back) []
  rw [cleared_nil] at hall
  rw [hall, heq, List.append_nil]
  rw [List.append_nil] at hback
  have hcongr : v.cleared (front ++ back) = v.cleared (back ++ front.reverse) :=
    cleared_congr v (by simp [or_comm])
  rw [hcongr, cleared_append]
  intro id' hid'
  cases back with
  | nil => cases hid'
  | cons id tail =>
      have hstop := hback id rfl
      by_cases hne : id' = id
      · subst hne
        rcases hstop with hnone | ⟨hin, _⟩
        · right
          rintro ⟨r, hfind, _⟩
          rw [hnone] at hfind
          cases hfind
        · exact Or.inl hin
      · right
        refine h id (by simp) ?_ id' (List.mem_append_right _ hid') hne
        refine hstop.imp_right ?_
        rintro ⟨hin, hreleases⟩
        refine ⟨?_, hreleases⟩
        have hfront := List.one_le_count_iff.mpr (List.mem_reverse.mp hin)
        rw [List.count_append, List.count_cons_self]
        omega

/-- The same index, and the same disk blocks of the items in it. -/
structure SameBlocks (w w' : View) : Prop where
  index : w.find = w'.find
  disk : ∀ id r, w.find id = some r → (w.items r).blocks.map (·.diskBlockItem) =
    (w'.items r).blocks.map (·.diskBlockItem)

/-- Some order of the ids makes the pass end before it gets to another id. -/
theorem Stops.order {v : View} {ids : List CacheId} {id : CacheId} (h : v.Stops ids id)
    (hid : id ∈ ids) : ∃ xs, ids.Perm xs ∧ ∀ x ∈ v.processed [] xs, x = id := by
  rcases h with hnone | ⟨hcount, hreleases⟩
  · refine ⟨_, List.perm_cons_erase hid, ?_⟩
    simp [processed, hnone]
  · have hid' : id ∈ ids.erase id := by
      rw [← List.one_le_count_iff, List.count_erase_self]
      omega
    refine ⟨_, (List.perm_cons_erase hid).trans ((List.perm_cons_erase hid').cons id), ?_⟩
    have hfind : v.find id ≠ none := by
      obtain ⟨r, hr, _⟩ := hreleases
      rw [hr]
      exact Option.some_ne_none r
    simp [processed, hfind, hreleases]

/-- Another order makes the pass start with it. -/
theorem mem_processed {v : View} {id : CacheId} (hfind : v.find id ≠ none) (rest : List CacheId) :
    id ∈ v.processed [] (id :: rest) := by
  unfold processed
  rw [if_neg (by simp [hfind])]
  obtain ⟨front, back, _, heq, _⟩ := v.processed_eq rest [id]
  rw [heq]
  exact List.mem_append_right _ List.mem_cons_self

theorem cleared_affected {v : View} (hinj : v.Injective) {done done' : List CacheId}
    {id : CacheId} (haffects : v.Affects id) (hout : id ∉ done) (hin : id ∈ done') :
    ¬ SameBlocks (v.cleared done) (v.cleared done') := by
  intro hsame
  obtain ⟨r, hfind, haffected⟩ := haffects
  have hfind₁ : (v.cleared done).find id = some r := by
    unfold cleared
    dsimp only
    rw [if_neg (fun h => hout h.1)]
    exact hfind
  have hitem₁ : (v.cleared done).items r = v.items r := by
    unfold cleared
    dsimp only
    rw [if_neg]
    rintro ⟨id', hid', hfind'⟩
    exact hout (hinj id' id r hfind' hfind ▸ hid')
  have hitem₂ : (v.cleared done').items r = (v.items r).evicted := by
    unfold cleared
    dsimp only
    rw [if_pos ⟨id, hin, hfind⟩]
  have hkept : ¬ v.Releases id := by
    intro hreleases
    have hfind₂ : (v.cleared done').find id = none := by
      unfold cleared
      dsimp only
      rw [if_pos ⟨hin, hreleases⟩]
    rw [← hsame.index, hfind₁] at hfind₂
    cases hfind₂
  rw [releases_iff hfind] at hkept
  rcases haffected with ⟨b, hb, hdisk⟩ | hempty
  · -- its disk blocks are there in one order only
    have hdisks := hsame.disk id r hfind₁
    rw [hitem₁, hitem₂, CacheItem.evicted_blocks] at hdisks
    have hmem : b.diskBlockItem ∈ (v.items r).clearDiskBlocks.blocks.map (·.diskBlockItem) := by
      rw [← hdisks]
      exact List.mem_map_of_mem hb
    unfold CacheItem.clearDiskBlocks at hmem
    rw [List.map_map, List.mem_map] at hmem
    obtain ⟨_, _, hnone⟩ := hmem
    exact hdisk hnone.symm
  · apply hkept
    unfold CacheItem.DiskOnly CacheItem.clearDiskBlocks
    rw [List.all_eq_true] at hempty ⊢
    rintro _ hb
    obtain ⟨b, hmem, rfl⟩ := List.mem_map.mp hb
    have hb := hempty b hmem
    unfold BlockItem.isEmpty at hb ⊢
    rw [Bool.and_eq_true] at hb
    simpa using hb.1

/-- If the order does not matter, ending early is harmless. -/
theorem harmless_of_order {v : View} (hinj : v.Injective) {ids : List CacheId}
    (h : ∀ xs, ids.Perm xs → SameBlocks (evictAll ids v) (evictAll xs v)) : v.Harmless ids := by
  intro id hid hstops id' hid' hne haffects
  obtain ⟨xs, hxs, hprocessed⟩ := hstops.order hid
  have hys := List.perm_cons_erase hid'
  have hfind : v.find id' ≠ none := by
    obtain ⟨r, hr, _⟩ := haffects
    rw [hr]
    exact Option.some_ne_none r
  have hcleared : ∀ zs, evictAll zs v = v.cleared (v.processed [] zs) := by
    intro zs
    rw [← evictAll_cleared, cleared_nil]
  have hx := h xs hxs
  have hy := h _ hys
  refine cleared_affected hinj haffects (fun hin => hne (hprocessed id' hin))
    (mem_processed hfind (ids.erase id')) ?_
  rw [← hcleared, ← hcleared]
  refine ⟨hx.index.symm.trans hy.index, fun id r hr => ?_⟩
  rw [← hx.index] at hr
  exact (hx.disk id r hr).symm.trans (hy.disk id r hr)

end View

/-! ## The program on views -/

variable {pf : Platform} {s t : State}

/-- Well-formed, and nothing is alive that nothing refers to. -/
structure Tidy (pf : Platform) (s : State) : Prop where
  wf : WF pf s
  collected : Collected s

theorem collect_view {T : Prop} (h : WF pf s) :
    Spec T (collect pf) (fun _ t => Tidy pf t ∧ t.view = s.view) s := by
  refine (collect_spec h).mono ?_
  rintro _ t ⟨hwf, hcollected, heffect⟩
  refine ⟨⟨hwf, hcollected⟩, ?_⟩
  rw [heffect.eq]
  rfl

theorem BlockItem.eq_of_isEmpty {b : BlockItem} (h : b.isEmpty = true) : b = {} := by
  unfold BlockItem.isEmpty at h
  rw [Bool.and_eq_true, Option.isNone_iff_eq_none, Option.isNone_iff_eq_none] at h
  cases b
  simp_all

/-- Clearing a block that holds nothing. -/
theorem clearBlock_view {T : Prop} (h : WF pf s) {r : ItemRef} (i : Nat)
    (hempty : (s.items r).blocks.all (·.isEmpty) = true) :
    Spec T (clearBlock pf r i) (fun _ t => Tidy pf t ∧ t.view = s.view) s := by
  unfold clearBlock updateItem
  simp only [spec_bind, spec_modify]
  have hsame : (s.items r).updateBlock i (fun _ => {}) = s.items r := by
    have hmodify : (s.items r).blocks.modify i (fun _ => {}) = (s.items r).blocks := by
      apply List.ext_getElem?
      intro j
      rw [List.getElem?_modify]
      cases hb : (s.items r).blocks[j]? with
      | none => rfl
      | some b =>
          have hb' := BlockItem.eq_of_isEmpty
            (List.all_eq_true.mp hempty b (List.mem_of_getElem? hb))
          subst hb'
          simp
    unfold CacheItem.updateBlock
    rw [hmodify]
  rw [hsame, Function.update_eq_self]
  exact collect_view h

/-- `_remove_cache_item` for an item that holds nothing. -/
theorem removeCacheItem_view {T : Prop} (h : WF pf s) {id : CacheId} {r : ItemRef}
    (hfound : s.find id = some r) (hheld : .item r ∈ s.locals)
    (hempty : (s.items r).blocks.all (·.isEmpty) = true)
    (hT : T → (s.items r).blockCount pf.flags < 4294967296) :
    Spec T (StarCacheImpl.removeCacheItem pf id r) (fun _ t =>
      (s.items r).blockCount pf.flags < 4294967296 ∧ Tidy pf t ∧ t.view =
      { s.view with
        find := Function.update s.find id none
        items := Function.update s.items r { s.items r with released := true } })
      (s.withItem r { s.items r with released := true }) := by
  unfold StarCacheImpl.removeCacheItem indexRemove emit
  simp only [spec_bind, spec_modify]
  have hview : State.view { s.withItem r { s.items r with released := true } with
      accessIndex := s.accessIndex.erase id } = { s.view with
        find := Function.update s.find id none
        items := Function.update s.items r { s.items r with released := true } } := by
    have hfind : (fun id' => (s.accessIndex.erase id).lookup id') =
        Function.update s.find id none := by
      funext id'
      rw [State.find_erase, Function.update_apply]
    unfold State.view
    rw [← hfind]
    rfl
  refine (collect_view (s := { s.withItem r { s.items r with released := true } with
    accessIndex := s.accessIndex.erase id
    trace := s.trace ++ [.indexRemove id r] }) { h.unlink hfound with }).mono ?_
  rintro _ u ⟨htidy, hu⟩
  have hu := hu.trans hview
  have hitem : ∀ {v : State}, v.view = u.view →
      v.items r = { s.items r with released := true } ∧ .item r ∈ v.locals := by
    intro v hv
    have hitems := congrArg View.items (hv.trans hu)
    have hlocals := congrArg View.locals (hv.trans hu)
    refine ⟨(congrFun hitems r).trans (Function.update_self ..), ?_⟩
    exact (show v.locals = s.locals from hlocals) ▸ hheld
  have hsame : (u.items r).blockCount pf.flags = (s.items r).blockCount pf.flags := by
    rw [(hitem rfl).1]
    rfl
  unfold StarCacheImpl.blockIndexes
  simp only [spec_bind, spec_read, hsame]
  refine spec_require (fun ht => by rw [hsame]; exact hT ht) fun hcount => ?_
  rw [hsame] at hcount
  rw [spec_pure]
  refine (spec_forEach (fun rest v => (∀ i ∈ rest, i < (s.items r).blockCount pf.flags) ∧
    Tidy pf v ∧ v.view = u.view) ?_ _ u ⟨fun i hi => ?_, htidy, rfl⟩).mono ?_
  · rintro i rest v ⟨hlt, hv, hview⟩
    obtain ⟨hvitem, hvlocal⟩ := hitem hview
    have hlen : (v.items r).blocks.length = (s.items r).blockCount pf.flags := by
      rw [hv.wf.length r (hv.wf.local_alive hvlocal), hvitem]
      rfl
    unfold lock unlock MemCache.evictUntrack
    simp only [spec_bind, spec_modify]
    refine getBlock_spec (fun _ => ?_) fun b hb => ?_
    · dsimp only
      rw [hlen]
      exact hlt i List.mem_cons_self
    refine (clearBlock_view (s := { v with locks := v.locks ++ [.lock true ⟨id, i⟩] })
      { hv.wf with } i (by rw [hvitem]; exact hempty)).mono ?_
    rintro _ w ⟨hw, hwview⟩
    refine ⟨fun j hj => hlt j (List.mem_cons_of_mem _ hj), ⟨{ hw.wf with
      memTracker := (hw.wf.memTracker.remove ⟨id, i⟩).1 }, ?_⟩, hwview.trans hview⟩
    exact { hw.collected with }
  · exact List.mem_range.mp hi
  · rintro _ v ⟨_, hv, hview⟩
    unfold DiskCache.evictUntrack
    rw [spec_modify]
    exact ⟨hcount, ⟨{ hv.wf with diskTracker := (hv.wf.diskTracker.remove id).1 },
      { hv.collected with }⟩, hview.trans hu⟩

/-- The blocks of every item that a pass may release are counted with 32 bits. -/
def Countable (pf : Platform) (s : State) (ids : List CacheId) : Prop :=
  ∀ id ∈ ids, ∀ r, s.find id = some r → (s.items r).DiskOnly →
    (s.items r).blockCount pf.flags < 4294967296

theorem processEvictedDiskItem_view {T : Prop} (h : WF pf s) {id : CacheId} {r : ItemRef}
    (hfound : s.find id = some r)
    (hT : T → (s.items r).DiskOnly → (s.items r).blockCount pf.flags < 4294967296) :
    Spec T (StarCacheImpl.processEvictedDiskItem pf id r) (fun _ t =>
      ((s.items r).DiskOnly → (s.items r).blockCount pf.flags < 4294967296) ∧
        Tidy pf t ∧ t.view = s.view.evict id r) s := by
  unfold StarCacheImpl.processEvictedDiskItem scope hold emit clearDiskBlocks updateItem
  simp only [spec_bind, spec_read, spec_modify]
  have hopen := h.hold (x := .item r) (h.indexed_live hfound)
  have hclear := hopen.clearDisk r
  -- what is left when the body has done its work and the local reference goes
  have hleave : ∀ {u : State} {v : View}, Tidy pf u → u.view = { v with locals := .item r :: s.locals } →
      v.locals = s.locals → Spec T (collect pf) (fun _ t => Tidy pf t ∧ t.view = v)
        { u with locals := s.locals } := by
    intro u v hu hview hlocals
    have hsub : ∀ x ∈ s.locals, x ∈ u.locals := by
      intro x hx
      have := congrArg View.locals hview
      rw [show u.locals = .item r :: s.locals from this]
      exact List.mem_cons_of_mem _ hx
    refine (collect_view (hu.wf.leave hsub)).mono ?_
    rintro _ t ⟨ht, htview⟩
    refine ⟨ht, htview.trans ?_⟩
    obtain ⟨find, items, segments, locals⟩ := v
    dsimp only at hlocals
    subst hlocals
    unfold State.view at hview ⊢
    simp only [View.mk.injEq] at hview ⊢
    exact ⟨hview.1, hview.2.1, hview.2.2.1, trivial⟩
  refine (collect_view (s := { s.withItem r (s.items r).clearDiskBlocks with
    locals := .item r :: s.locals
    trace := s.trace ++ [.diskCleared id r] }) { hclear with }).mono ?_
  rintro _ u ⟨hu, huview⟩
  have hfind : u.find = s.find := congrArg View.find huview
  have hitems : u.items = Function.update s.items r (s.items r).clearDiskBlocks :=
    congrArg View.items huview
  have hitem : u.items r = (s.items r).clearDiskBlocks := by
    rw [hitems, Function.update_self]
  have hfound' : u.find id = some r := by
    rw [hfind, hfound]
  have hheld : .item r ∈ u.locals := by
    rw [show u.locals = .item r :: s.locals from congrArg View.locals huview]
    exact List.mem_cons_self
  have hactive : (u.items r).released = false := hu.wf.active id r hfound'
  unfold releaseIfEmpty updateItem
  simp only [spec_bind, spec_read, spec_modify, spec_pure]
  by_cases hdisk : (s.items r).DiskOnly
  · have hempty : (u.items r).blocks.all (·.isEmpty) = true := by
      rw [hitem]
      exact hdisk
    have hrelease : (u.items r).releaseIfEmpty = (true, { u.items r with released := true }) := by
      unfold CacheItem.releaseIfEmpty
      simp [hactive, hempty]
    rw [hrelease]
    refine (removeCacheItem_view hu.wf hfound' hheld hempty fun ht => ?_).mono ?_
    · rw [hitem]
      exact hT ht hdisk
    rintro _ w ⟨hcount, hw, hwview⟩
    rw [hitem] at hcount
    refine (hleave hw ?_ rfl).mono fun _ t ht => ⟨fun _ => hcount, ht⟩
    rw [hwview, huview, hfind, hitem, hitems, Function.update_idem]
    unfold View.evict CacheItem.evicted State.view
    dsimp only
    rw [if_pos hdisk, if_pos hdisk]
    rfl
  · have hempty : ¬ (u.items r).blocks.all (·.isEmpty) = true := by
      rw [hitem]
      exact hdisk
    have hrelease : (u.items r).releaseIfEmpty = (false, u.items r) := by
      unfold CacheItem.releaseIfEmpty
      simp [hactive, hempty]
    rw [hrelease]
    dsimp only
    rw [Function.update_eq_self]
    refine (hleave hu ?_ rfl).mono fun _ t ht => ⟨fun h => absurd h hdisk, ht⟩
    rw [huview]
    unfold View.evict CacheItem.evicted State.view
    dsimp only
    rw [if_neg hdisk, if_neg hdisk]
    rfl

/-- What is left of the items of the list after one round. -/
theorem Countable.evict {id : CacheId} {r : ItemRef} {rest : List CacheId}
    (h : Countable pf s (id :: rest)) (hfind : s.find id = some r)
    (hview : t.view = s.view.evict id r) : Countable pf t rest := by
  intro id' hid' r' hfind' hdisk
  have hitem : t.items r' = if r' = r then (s.items r).evicted else s.items r' :=
    (congrFun (congrArg View.items hview) r').trans (Function.update_apply ..)
  have hkept : s.find id' = some r' := by
    have hfind' : t.view.find id' = some r' := hfind'
    rw [hview] at hfind'
    unfold View.evict at hfind'
    dsimp only at hfind'
    split at hfind'
    next =>
      rw [Function.update_apply] at hfind'
      split at hfind'
      next => cases hfind'
      next => exact hfind'
    next => exact hfind'
  unfold CacheItem.blockCount
  rw [hitem] at hdisk ⊢
  split at hdisk
  next heq =>
    have hsize : (s.items r).evicted.size = (s.items r).size := by
      unfold CacheItem.evicted
      split <;> rfl
    rw [if_pos heq, hsize]
    exact h id List.mem_cons_self r hfind (CacheItem.diskOnly_evicted _ |>.mp hdisk)
  next hne =>
    rw [if_neg hne]
    exact h id' (List.mem_cons_of_mem _ hid') r' hkept hdisk

/-- The pass as a function of the list. -/
theorem processEvictedDiskItems_view {T : Prop} : ∀ (ids : List CacheId) {s : State}, Tidy pf s →
    (T → Countable pf s ids) → Spec T (StarCacheImpl.processEvictedDiskItems pf ids)
      (fun _ t => (∀ id, ids.head? = some id → Countable pf s [id]) ∧
        Tidy pf t ∧ t.view = s.view.evictAll ids) s
  | [], _, h, _ => ⟨(fun _ hid => by cases hid), h, rfl⟩
  | id :: rest, s, h, hT => by
      unfold StarCacheImpl.processEvictedDiskItems View.evictAll
      simp only [spec_bind, spec_read]
      cases hfind : s.find id with
      | none =>
          have hview : s.view.find id = none := hfind
          rw [hview]
          refine ⟨?_, ⟨{ h.wf with }, { h.collected with }⟩, rfl⟩
          intro id' hid'
          cases hid'
          exact fun id' hid' r hr => absurd hr (by simp [List.mem_singleton.mp hid', hfind])
      | some r =>
          have hview : s.view.find id = some r := hfind
          rw [hview]
          simp only [spec_bind]
          refine (processEvictedDiskItem_view h.wf hfind fun ht =>
            hT ht id List.mem_cons_self r hfind).mono ?_
          rintro _ t ⟨hcount, ht, htview⟩
          refine (processEvictedDiskItems_view rest ht fun hT' =>
            (hT hT').evict hfind htview).mono ?_
          rintro _ u ⟨_, hu, huview⟩
          rw [htview] at huview
          refine ⟨?_, hu, huview⟩
          intro id' hid'
          cases hid'
          intro id' hid' r' hr'
          rw [List.mem_singleton.mp hid', hfind] at hr'
          cases hr'
          exact hcount

/-! ## What the view determines -/

/-- The same index, disk blocks and used bytes. -/
structure SameOutcome (t t' : State) : Prop where
  blocks : View.SameBlocks t.view t'.view
  allocated : ∀ id, t.diskSpace.Allocated id ↔ t'.diskSpace.Allocated id
  mem : t.memSpace.usedBytes = t'.memSpace.usedBytes
  disk : t.diskSpace.usedBytes = t'.diskSpace.usedBytes

/-- The live lists are the same up to their order. -/
theorem Tidy.perm {t t' : State} (h : Tidy pf t) (h' : Tidy pf t') (hview : t.view = t'.view) :
    t.liveItems.Perm t'.liveItems ∧ t.liveSegments.Perm t'.liveSegments ∧
      t.liveBlocks.Perm t'.liveBlocks := by
  have hfind : t.find = t'.find := congrArg View.find hview
  have hitems : t.items = t'.items := congrArg View.items hview
  have hlocals : t.locals = t'.locals := congrArg View.locals hview
  have hitem : ∀ r, r ∈ t.liveItems ↔ r ∈ t'.liveItems := by
    intro r
    have hheld : t.itemHeld r = true ↔ t'.itemHeld r = true := by
      rw [State.itemHeld_iff, State.itemHeld_iff, hfind, hlocals]
    exact ⟨fun hr => h'.wf.item_held r (hheld.mp (h.collected.item r hr)),
      fun hr => h.wf.item_held r (hheld.mpr (h'.collected.item r hr))⟩
  have hblock : ∀ r i b, t.HasBlock r i b ↔ t'.HasBlock r i b := by
    intro r i b
    unfold State.HasBlock
    rw [hitems]
  refine ⟨(List.perm_ext_iff_of_nodup h.wf.item_nodup h'.wf.item_nodup).mpr hitem,
    (List.perm_ext_iff_of_nodup h.wf.segment_nodup h'.wf.segment_nodup).mpr fun g => ?_,
    (List.perm_ext_iff_of_nodup h.wf.diskSpace.nodup h'.wf.diskSpace.nodup).mpr fun id => ?_⟩
  · have hheld : t.segmentHeld g = true ↔ t'.segmentHeld g = true := by
      simp only [State.segmentHeld_iff, hitem, hblock, hlocals]
    exact ⟨fun hg => h'.wf.segment_held g (hheld.mp (h.collected.segment g hg)),
      fun hg => h.wf.segment_held g (hheld.mpr (h'.collected.segment g hg))⟩
  · have hheld : t.blockHeld id = true ↔ t'.blockHeld id = true := by
      simp only [State.blockHeld_iff, hitem, hblock, hlocals]
    exact ⟨fun hid => h'.wf.block_held id (hheld.mp (h.collected.block id hid)),
      fun hid => h.wf.block_held id (hheld.mpr (h'.collected.block id hid))⟩

theorem Tidy.sameOutcome {t t' : State} (h : Tidy pf t) (h' : Tidy pf t')
    (hview : t.view = t'.view) : SameOutcome t t' := by
  obtain ⟨hitems, hsegments, hblocks⟩ := h.perm h' hview
  have hitem : t.items = t'.items := congrArg View.items hview
  have hsegment : t.segments = t'.segments := congrArg View.segments hview
  refine ⟨?_, fun id => ?_, ?_, ?_⟩
  · rw [hview]
    exact ⟨rfl, fun _ _ _ => rfl⟩
  · rw [h.wf.diskSpace.allocated, h'.wf.diskSpace.allocated, hblocks.mem_iff]
  · have hmem := h.wf.memSpace
    have hmem' := h'.wf.memSpace
    unfold State.itemsCharge State.segmentsCharge at hmem hmem'
    rw [hitem, hsegment, (hitems.map _).sum_nat, (hsegments.map _).sum_nat] at hmem
    exact hmem.trans hmem'.symm
  · rw [h.wf.diskSpace.used, h'.wf.diskSpace.used, hblocks.length_eq]

/-! ## Every id of a pass -/

/-- The id is not indexed any more or owns no disk block, and a disk block that its item had
is allocated only as long as a running call refers to it. -/
structure Reclaimed (s t : State) (id : CacheId) (r : ItemRef) : Prop where
  owns : ∀ r', t.find id = some r' → ∀ b ∈ (t.items r').blocks, b.diskBlockItem = none
  returned : ∀ b ∈ (s.items r).blocks, ∀ d, b.diskBlockItem = some d →
    t.diskSpace.Allocated d → .diskBlock d ∈ t.locals

/-- Every id of the list is processed, and the order of the list does not matter. -/
def ProcessesAll (pf : Platform) (s : State) (ids : List CacheId) : Prop :=
  ∃ t, StarCacheImpl.processEvictedDiskItems pf ids s = some ((), t) ∧
    (∀ id ∈ ids, ∀ r, s.find id = some r → Reclaimed s t id r) ∧
    ∀ ids', ids.Perm ids' → ∃ t', StarCacheImpl.processEvictedDiskItems pf ids' s = some ((), t') ∧
      SameOutcome t t'

theorem WF.injective (h : WF pf s) : s.view.Injective := fun _ _ _ hfind hfind' =>
  h.find_inj hfind hfind'

theorem Tidy.reclaimed (h : Tidy pf s) (ht : Tidy pf t) {ids : List CacheId}
    (hview : t.view = s.view.cleared ids) {id : CacheId} (hid : id ∈ ids) {r : ItemRef}
    (hfind : s.find id = some r) : Reclaimed s t id r := by
  have hitem : ∀ r', t.items r' =
      if ∃ id ∈ ids, s.find id = some r' then (s.items r').evicted else s.items r' :=
    fun r' => congrFun (congrArg View.items hview) r'
  have hevicted : ∀ r', (∃ id ∈ ids, s.find id = some r') → ∀ b ∈ (t.items r').blocks,
      b.diskBlockItem = none := by
    intro r' hr' b hb
    rw [hitem, if_pos hr', CacheItem.evicted_blocks] at hb
    obtain ⟨_, _, rfl⟩ := List.mem_map.mp hb
    rfl
  have hkept : ∀ id' r', t.find id' = some r' → s.find id' = some r' := by
    intro id' r' hfind'
    have hfind'' : t.view.find id' = some r' := hfind'
    rw [hview] at hfind''
    exact (View.cleared_find hfind'').1
  refine ⟨fun r' hfind' => hevicted r' ⟨id, hid, hkept id r' hfind'⟩, ?_⟩
  intro b hb d hd hallocated
  have hlive := (ht.wf.diskSpace.allocated d).mp hallocated
  refine (State.blockHeld_iff.mp (ht.collected.block d hlive)).resolve_left ?_
  rintro ⟨r', hr', i', b', hb', hd'⟩
  by_cases hvisited : ∃ id ∈ ids, s.find id = some r'
  · rw [hevicted r' hvisited b' (State.mem_blocks_iff.mpr ⟨i', hb'⟩)] at hd'
    cases hd'
  · -- its owner is an item of the list
    have hrs : r' ∈ s.liveItems := by
      apply h.wf.item_held
      rw [State.itemHeld_iff]
      have hlocals : t.locals = s.locals := congrArg View.locals hview
      rw [← hlocals]
      exact (State.itemHeld_iff.mp (ht.collected.item r' hr')).imp_left
        fun ⟨id', hfind'⟩ => ⟨id', hkept id' r' hfind'⟩
    unfold State.HasBlock at hb'
    rw [hitem, if_neg hvisited] at hb'
    obtain ⟨i, hi⟩ := State.mem_blocks_iff.mp hb
    obtain ⟨rfl, _⟩ := h.wf.owner r (h.wf.indexed_live hfind) r' hrs i i' b b' hi hb' d hd hd'
    exact hvisited ⟨id, hid, hfind⟩

/-- A pass processes every id in any order exactly when nothing is left to do for the ids other
than the one at which it may end, and when it can count the blocks of what it releases. -/
theorem processesAll_iff (hs : Tidy pf s) (ids : List CacheId) :
    ProcessesAll pf s ids ↔ s.view.Harmless ids ∧ Countable pf s ids := by
  constructor
  · rintro ⟨t, ht, _, horder⟩
    have hrun : ∀ xs u, StarCacheImpl.processEvictedDiskItems pf xs s = some ((), u) →
        (∀ id, xs.head? = some id → Countable pf s [id]) ∧ u.view = s.view.evictAll xs := by
      intro xs u hu
      obtain ⟨hcount, _, huview⟩ :=
        (processEvictedDiskItems_view (T := False) xs hs False.elim).outcome hu
      exact ⟨hcount, huview⟩
    constructor
    · apply View.harmless_of_order hs.wf.injective
      intro xs hxs
      obtain ⟨t', ht', hsame⟩ := horder xs hxs
      rw [← (hrun ids t ht).2, ← (hrun xs t' ht').2]
      exact hsame.blocks
    · intro id hid
      obtain ⟨t', ht', _⟩ := horder (id :: ids.erase id) (List.perm_cons_erase hid)
      exact (hrun _ t' ht').1 id rfl id List.mem_cons_self
  · rintro ⟨hharmless, hcount⟩
    have hrun : ∀ xs, ids.Perm xs → ∃ t,
        StarCacheImpl.processEvictedDiskItems pf xs s = some ((), t) ∧
          Tidy pf t ∧ t.view = s.view.evictAll xs := by
      intro xs hxs
      obtain ⟨_, t, ht, _, htidy⟩ := (processEvictedDiskItems_view (T := True) xs hs fun _ id hid =>
        hcount id (hxs.mem_iff.mpr hid)).defined trivial
      exact ⟨t, ht, htidy⟩
    obtain ⟨t, ht, htidy, htview⟩ := hrun ids (.refl _)
    rw [hharmless.evictAll] at htview
    refine ⟨t, ht, fun id hid r hfind => hs.reclaimed htidy htview hid hfind, fun xs hxs => ?_⟩
    obtain ⟨t', ht', htidy', htview'⟩ := hrun xs hxs
    refine ⟨t', ht', htidy.sameOutcome htidy' ?_⟩
    rw [htview, htview', (hharmless.perm hxs).evictAll]
    exact View.cleared_congr _ fun id => hxs.mem_iff

/-- Two objects that are both in the index. -/
theorem processesAll_small : ∃ history s,
    Run (.simple .small .reliable) (.oneDir 100 16) history s ∧
      ProcessesAll (.simple .small .reliable) s [1, 2] := by
  obtain ⟨history, s, hrun, hp⟩ := Run.of_calls (.simple .small .reliable) (.oneDir 100 16)
    [.set [1] [1, 2, 3, 4] (some { mode := .writeThrough }),
      .set [2] [5, 6, 7, 8] (some { mode := .writeThrough })]
    (fun _ s => decide (s.find 1 = some 0 ∧ s.find 2 = some 1 ∧
      (s.items 0).blockCount .small < 4294967296 ∧ (s.items 1).blockCount .small < 4294967296))
    (by decide +kernel)
  obtain ⟨hfind₁, hfind₂, hcount₁, hcount₂⟩ := of_decide_eq_true hp
  obtain ⟨hwf, hquiet⟩ := hrun.quiet
  refine ⟨history, s, hrun, (processesAll_iff ⟨hwf, hquiet.collected⟩ [1, 2]).mpr ⟨?_, ?_⟩⟩
  · intro id hid hstops
    have hfind : s.find id ≠ none ∧ [1, 2].count id < 2 := by
      rcases List.mem_pair.mp hid with rfl | rfl
      · exact ⟨by rw [hfind₁]; exact Option.some_ne_none _, by decide⟩
      · exact ⟨by rw [hfind₂]; exact Option.some_ne_none _, by decide⟩
    rcases hstops with hnone | ⟨htwice, _⟩
    · exact absurd hnone hfind.1
    · omega
  · intro id hid r hfind _
    rcases List.mem_pair.mp hid with rfl | rfl
    · rw [hfind₁] at hfind
      cases hfind
      exact hcount₁
    · rw [hfind₂] at hfind
      cases hfind
      exact hcount₂

/-- The ids that the eviction policy gives up after a set that has failed: the first one is not
indexed, and the disk blocks of the second one stay. -/
theorem not_processesAll : ∃ history s ids t,
    Run (.simple { Flags.small with diskEvictTimes := 3 } (.failingWrite 8)) (.oneDir 100 8)
        history s ∧
      DiskCache.evictFor (.simple .small .reliable) 3 12 s = some (ids, t) ∧
      ids.Nodup ∧ ¬ ProcessesAll (.simple .small .reliable) t ids := by
  obtain ⟨history, s, hrun, hp⟩ := Run.of_calls
    (.simple { Flags.small with diskEvictTimes := 3 } (.failingWrite 8)) (.oneDir 100 8)
    [.set [2] [1, 2, 3, 4, 5, 6, 7, 8] (some { mode := .writeThrough }),
      .set [1] [1, 2, 3, 4, 5, 6, 7, 8] (some { mode := .writeThrough })]
    (fun _ s => (DiskCache.evictFor (.simple .small .reliable) 3 12 s).any fun (x : List CacheId × State) =>
      (StarCacheImpl.processEvictedDiskItems (.simple .small .reliable) x.1 x.2).any fun (y : Unit × State) =>
        decide (x.1 = [2, 1] ∧ x.2.find 1 = some 1 ∧ y.2.find 1 = some 1 ∧
          ((y.2.items 1).blocks[0]?.bind BlockItem.diskBlockItem).isSome = true))
    (by decide +kernel)
  obtain ⟨⟨ids, t⟩, hevict, hp⟩ := (Option.any_eq_true _ _).mp hp
  obtain ⟨y, hpass, hp⟩ := (Option.any_eq_true _ _).mp hp
  obtain ⟨rfl, hfind, hfind', hblock⟩ := of_decide_eq_true hp
  refine ⟨history, s, [2, 1], t, hrun, hevict, by decide, ?_⟩
  rintro ⟨u, hu, hreclaimed, _⟩
  obtain rfl : y.2 = u := (Prod.mk.inj (Option.some.inj (hpass.symm.trans hu))).2
  obtain ⟨block, hblock⟩ := Option.isSome_iff_exists.mp hblock
  obtain ⟨b, hb, hdisk⟩ := Option.bind_eq_some_iff.mp hblock
  have hnone := (hreclaimed 1 (by decide) 1 hfind).owns 1 hfind' b (List.mem_of_getElem? hb)
  rw [hdisk] at hnone
  cases hnone

end StarCache
