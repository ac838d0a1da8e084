import StarCache.Sharing.Knowledge

/-!
# Actions on shared objects

What each action needs, keeps and leaves behind.
-/

namespace StarCache

namespace Sharing

open Discipline Pool Function Shared

variable {flags : Flags} {V : Objects} {t : Nat} {h : Held} {F : Knowledge} {s : Shared}
  {r : ItemRef} {i : Nat} {d : DiskRef} {m : MemRef}

theorem alive_item (hh : s.held t = h) (hr : 0 < h.items r) : .thread t ∈ s.itemHolders r :=
  mem_itemHolders.mpr (hh ▸ hr)

theorem alive_disk (hh : s.held t = h) (hd : 0 < h.disks d) : .thread t ∈ s.diskHolders d :=
  mem_diskHolders.mpr (hh ▸ hd)

/-! ## Items -/

theorem holdItem_gives (s : Shared) (r : ItemRef) (x : ItemHolder) : Gives s (s.holdItem r x) :=
  ⟨rfl, fun _ _ h => h, fun _ _ _ h => h, fun _ _ _ h => h, fun _ _ h => h⟩

theorem Contents.setItems {s : Shared} (hs : Contents flags V s) {items : ItemRef → Item}
    (hitems : ∀ r, (items r).cacheKey = (s.items r).cacheKey ∧
      (items r).value = (s.items r).value)
    (hlinked : ∀ r, (s.items r).linked = true → (items r).linked = true) :
    Contents flags V { s with items := items } := by
  have hpart : ∀ r i, part flags { s with items := items } r i = s.part flags r i := by
    intro r i
    unfold part
    rw [(hitems r).2]
  refine ⟨fun r hr => ?_, hs.memSlot, hs.diskSlot, fun m hm => ?_, hs.owner, hs.hidden,
    fun d hd hpub p hp => ?_, fun id r hid => hlinked r (hs.indexed id r hid)⟩
  · dsimp only
    rw [(hitems r).1, (hitems r).2]
    exact hs.value r hr
  · obtain ⟨howner, hlength, hsegment⟩ := hs.mem m hm
    refine ⟨howner, hlength, fun k g hg => ?_⟩
    rw [hpart]
    exact hsegment k g hg
  · unfold GoodAt
    rw [hpart] at hp ⊢
    exact hs.good d hd hpub p hp

/-- The thread has found the item in the index. -/
def Sought (id : CacheId) (r : ItemRef) : Knowledge := fun tr s =>
  ⟨.find id, some r⟩ ∈ tr ∧ Linked r tr s

theorem lasting_sought {id : CacheId} : Lasting flags V (Sought id r) :=
  persistent_deed.and lasting_linked

theorem Sought.linked {k : CacheId} : Gets flags V (Sought k r) (Linked r) :=
  (Gets.refl (Linked r)).right

def Found (id : CacheId) (F : Knowledge) : Option ItemRef → Knowledge
  | none => F
  | some r => fun tr s => F tr s ∧ Sought id r tr s

/-- What the index has is kept and linked. -/
theorem find_runs (hF : Lasting flags V F) {id : CacheId} :
    Runs flags V t h F (perform (.find id)) (fun a => a.elim h h.item) (Found id F) := by
  refine (runs_perform (N := fun a tr s => ∀ r, a = some r → Sought id r tr s) hF
    (fun a => persistent_all fun r => persistent_all fun _ => lasting_sought) (.refl F)
    fun tr s hs hh hP => ?_).post fun a tr s _ hP => ?_
  swap
  · cases a with
    | none => exact hP.1
    | some r => exact ⟨hP.1, hP.2 r rfl⟩
  cases hid : s.index id with
  | none =>
      refine ⟨Or.inr fun _ => by simp only [effect, hid, Option.isSome], fun _ a s' heffect => ?_⟩
      simp only [effect, hid] at heffect
      cases heffect
      exact ⟨hs, .refl s, hh, fun _ h => nomatch h⟩
  | some r =>
      refine ⟨Or.inr fun _ => by simp only [effect, hid, Option.isSome], fun _ a s' heffect => ?_⟩
      simp only [effect, hid] at heffect
      cases heffect
      have halive : s.itemHolders r ≠ [] := indexed_alive hs.ledger.counted hid
      have hgives := holdItem_gives s r (.thread t)
      refine ⟨⟨ledger_holdItem hs.ledger halive, hs.contents.gives hgives⟩,
        hgives.guar (fun t' ht => ?_) fun r' _ h' => ?_, ?_, ?_⟩
      · rw [held_holdItem, if_neg fun heq => ht (ItemHolder.thread.inj heq).symm]
      · exact ⟨fun hnil => h' ((holdItem_alive halive r').mpr hnil), rfl, rfl⟩
      · rw [held_holdItem, if_pos rfl, hh]
        rfl
      · rintro r' ⟨⟩
        exact ⟨List.mem_cons_self, hs.ledger.counted.lt r halive, hs.contents.indexed id r hid⟩

theorem link_items (s : Shared) (id : CacheId) (r r' : ItemRef) :
    (s.link flags id r).items r' =
      if r' = r then { s.items r with linked := true } else s.items r' := by
  have hitems : (s.clearIndex flags id).items = s.items := by
    rw [(clearIndex_gives s id).eq]
  show update (s.clearIndex flags id).items r _ r' = _
  by_cases hr : r' = r
  · rw [hr, update_self, if_pos rfl, ← hitems]
    rfl
  · rw [update_of_ne hr, if_neg hr, hitems]

theorem link_item (s : Shared) (id : CacheId) (r r' : ItemRef) :
    ((s.link flags id r).items r').cacheKey = (s.items r').cacheKey ∧
      ((s.link flags id r).items r').value = (s.items r').value := by
  rw [link_items]
  split
  next hr =>
    rw [hr]
    exact ⟨rfl, rfl⟩
  next => exact ⟨rfl, rfl⟩

/-- What is still there has what it had. -/
theorem link_alive {id : CacheId} {r' : ItemRef} (hr : .thread t ∈ s.itemHolders r)
    (h' : (s.link flags id r).itemHolders r' ≠ []) :
    s.itemHolders r' ≠ [] ∧ (s.link flags id r).memSlot r' = s.memSlot r' ∧
      (s.link flags id r).diskSlot r' = s.diskSlot r' := by
  have hkept : (s.clearIndex flags id).itemHolders r ≠ [] := by
    apply List.ne_nil_of_mem (a := ItemHolder.thread t)
    rw [mem_itemHolders, held_clearIndex, ← mem_itemHolders]
    exact hr
  exact clearIndex_alive fun hnil => h' ((holdItem_alive hkept r').mpr hnil)

theorem Contents.link {id : CacheId} (hs : Contents flags V s) :
    Contents flags V (s.link flags id r) := by
  have hgives : Gives s ((s.clearIndex flags id).holdItem r (.index id)) :=
    (clearIndex_gives s id).trans (holdItem_gives ..)
  have hc := hs.gives hgives
  have hmarked : Contents flags V (((s.clearIndex flags id).holdItem r (.index id)).mark r) := by
    refine hc.setItems (mark_item _ r) fun r' hlinked => ?_
    show (update (holdItem (s.clearIndex flags id) r (.index id)).items r _ r').linked = true
    by_cases hr : r' = r
    · rw [hr, update_self]
    · rwa [update_of_ne hr]
  refine ⟨hmarked.value, hmarked.memSlot, hmarked.diskSlot,
    fun m hm => ⟨(hmarked.mem m hm).owner, (hmarked.mem m hm).length, (hmarked.mem m hm).segment⟩,
    hmarked.owner, hmarked.hidden, hmarked.good, fun id' r' hid => ?_⟩
  rw [link_items]
  split
  next => rfl
  next hr =>
    have hid : (putIndex _ id (some r)).index id' = some r' := hid
    rw [putIndex_index] at hid
    split at hid
    next => exact absurd (Option.some.inj hid).symm hr
    next => exact hs.indexed id' r' (hgives.indexed id' r' hid)

/-- The index gets no item that is not complete. -/
theorem link_spares {id : CacheId} (hr : .thread t ∈ s.itemHolders r)
    (hcomplete : s.Fresh r → s.Complete flags r) : Spares flags s (s.link flags id r) := by
  have hblocks : (s.link flags id r).memBlocks = s.memBlocks := by
    show (s.clearIndex flags id).memBlocks = _
    rw [(clearIndex_gives s id).eq]
  refine ⟨fun r' _ hlinked => ?_, fun r' _ hfresh => (link_alive hr hfresh.alive).1,
    fun r' _ _ hmark => ?_, fun r' _ hfresh i hwhole => ?_, fun r' _ hunlinked hlinked => ?_⟩
  · rw [link_items]
    split
    next => rfl
    next => exact hlinked
  · rw [link_items]
    split
    next heq => exact heq ▸ hmark
    next => exact hmark
  · obtain ⟨_, hmem, hdisk⟩ := link_alive hr hfresh.alive
    unfold Whole Full HasSlice part at hwhole ⊢
    rwa [hmem, hdisk, hblocks, (link_item s id r r').2]
  · rw [link_items] at hlinked
    split at hlinked
    next heq =>
      rw [heq] at hunlinked ⊢
      exact hcomplete ⟨hunlinked, List.ne_nil_of_mem hr⟩
    next =>
      rw [hunlinked] at hlinked
      cases hlinked

theorem insert_runs (hF : Lasting flags V F) {id : CacheId} (hr : 0 < h.items r)
    (hcomplete : Gets flags V F fun _ s => s.Fresh r → s.Complete flags r) :
    Runs flags V t h F (perform (.insert id r)) (fun _ => h)
      fun a tr s => F tr s ∧ ⟨.insert id r, a⟩ ∈ tr := by
  refine runs_change hF (fun _ => persistent_deed) fun tr s hs hh hP =>
    ⟨(), s.link flags id r, fun _ => ?_, ?_, ?_, ?_, List.mem_cons_self⟩
  · exact if_pos (alive_item hh hr)
  · exact ⟨ledger_link hs.ledger (alive_item hh hr), hs.contents.link⟩
  · refine .of_eq (link_item s id r) ?_ (fun t' _ => held_link s id r t')
      (link_spares (alive_item hh hr) (hcomplete tr s hs hP))
    have heq := (@clearIndex_gives flags s id).eq
    unfold Shared.link mark putIndex holdItem
    rw [heq]
  · rw [held_link, hh]

theorem erase_runs (hF : Lasting flags V F) {id : CacheId} :
    Runs flags V t h F (perform (.erase id)) (fun _ => h) fun _ => F := by
  refine runs_step hF fun tr s hs hh hP => ⟨(), s.clearIndex flags id, fun _ => rfl, ?_, ?_, ?_⟩
  · exact ⟨ledger_clearIndex id hs.ledger, hs.contents.gives (clearIndex_gives s id)⟩
  · exact (clearIndex_gives s id).guar (fun t' _ => held_clearIndex s id t') fun _ _ h' =>
      clearIndex_alive h'
  · rw [held_clearIndex, hh]

theorem dropItem_runs (hF : Lasting flags V F) :
    Runs flags V t (h.item r) F (perform (.dropItem r)) (fun _ => h) fun _ => F := by
  refine runs_step hF fun tr s hs hh hP =>
    ⟨(), s.dropItem flags r (.thread t), fun _ => ?_, ?_, ?_, ?_⟩
  · refine if_pos (alive_item hh ?_)
    rw [Held.item_items, if_pos rfl]
    exact Nat.succ_pos _
  · exact ⟨ledger_dropItem_thread hs.ledger, hs.contents.gives (dropItem_gives ..)⟩
  · refine (dropItem_gives ..).guar (fun t' ht => ?_) fun _ _ h' => dropItem_alive h'
    rw [held_dropItem_thread]
    simp [ht]
  · rw [held_dropItem_thread, hh]
    ext r'
    · simp [Held.item_items]
    · rfl
    · rfl

theorem addItem_items_of_lt {item : Item} (hr : r < s.itemCount) :
    (s.addItem t item).items r = s.items r := update_of_ne (Nat.ne_of_lt hr) ..

theorem Contents.addItem {item : Item} (hs : Contents flags V s) (hitem : V.Has item.cacheKey item.value)
    (halive : ∀ d, (s.addItem t item).diskHolders d ≠ [] → s.diskHolders d ≠ [])
    (hindexed : ∀ id r, s.index id = some r → r < s.itemCount) :
    Contents flags V (s.addItem t item) := by
  have hpart : ∀ r < s.itemCount, ∀ i, part flags (s.addItem t item) r i = s.part flags r i := by
    intro r hr i
    unfold part
    rw [addItem_items_of_lt hr]
  refine ⟨fun r hr => ?_, hs.memSlot, hs.diskSlot, fun m hm => ?_,
    fun d hd => Nat.lt_succ_of_lt (hs.owner d (halive d hd)), hs.hidden, fun d hd hpub p hp => ?_,
    fun id r hid => ?_⟩
  · by_cases hnew : r < s.itemCount
    · rw [addItem_items_of_lt hnew]
      exact hs.value r hnew
    · obtain rfl : r = s.itemCount := Nat.le_antisymm (Nat.le_of_lt_succ hr) (Nat.not_lt.mp hnew)
      have hnew : (s.addItem t item).items s.itemCount = item := update_self ..
      rw [hnew]
      exact hitem
  · obtain ⟨howner, hlength, hsegment⟩ := hs.mem m hm
    refine ⟨Nat.lt_succ_of_lt howner, hlength, fun k g hg => ?_⟩
    have hsame := hpart _ howner (s.memBlocks m).owner.2
    exact hsame ▸ hsegment k g hg
  · have hsame := hpart _ (hs.owner d (halive d hd)) (s.diskBlocks d).owner.2
    exact (hs.good d (halive d hd) hpub p (hsame ▸ hp)).trans
      (congrArg (fun bytes : IOBuf => bytes[p]?) hsame.symm)
  · rw [addItem_items_of_lt (hindexed id r hid)]
    exact hs.indexed id r hid

theorem newItem_runs (hF : Lasting flags V F) {cacheKey : CacheKey} {value : IOBuf}
    (hvalue : V.Has cacheKey value) :
    Runs flags V t h F (perform (.newItem cacheKey value)) (fun a => a.elim h h.item)
      fun a tr s => F tr s ∧ ∀ r, a = some r → IsItem r cacheKey value tr s ∧ Unreleased r tr s := by
  refine runs_perform hF (fun a => ?_) (.refl F) fun tr s hs hh hP =>
    ⟨Or.inr fun input => ?_, fun input a s' heffect => ?_⟩
  · exact persistent_all fun r => persistent_all fun _ => lasting_isItem.and lasting_unreleased
  · simp only [effect]
    split <;> rfl
  · simp only [effect] at heffect
    split at heffect
    next =>
      cases heffect
      refine ⟨⟨ledger_addItem hs.ledger _, hs.contents.addItem hvalue (fun _ h => h)
        fun _ r hid => hs.ledger.counted.lt r (indexed_alive hs.ledger.counted hid)⟩, ?_, ?_, ?_⟩
      · refine ⟨Nat.le_succ _, fun r hr => ?_, Nat.le_refl _, fun _ _ => rfl, fun _ _ _ h => h,
          Nat.le_refl _, fun _ _ => rfl, Nat.le_refl _, fun _ _ => ⟨rfl, rfl, id⟩, fun t' ht => ?_,
          fun _ _ _ _ hpub => ⟨hpub, fun _ _ => rfl⟩,
          .of_slots (fun r hr => addItem_items_of_lt hr) (fun r hr _ h => ?_) fun _ _ _ _ _ h => h⟩
        · rw [addItem_items_of_lt hr]
          exact ⟨rfl, rfl⟩
        · rw [held_addItem hs.ledger, if_neg ht]
        · refine ⟨?_, rfl, rfl⟩
          rwa [addItem_holders, if_neg (Nat.ne_of_lt hr)] at h
      · rw [held_addItem hs.ledger, if_pos rfl, hh]
        rfl
      · rintro r heq
        cases heq
        have hnew : (s.addItem t { cacheKey, value }).items s.itemCount = { cacheKey, value } :=
          update_self ..
        refine ⟨⟨Nat.lt_succ_self _, ?_⟩, Nat.lt_succ_self _, fun _ => ?_⟩
        · rw [hnew]
          exact ⟨rfl, rfl⟩
        · rw [hnew]
    next =>
      cases heffect
      exact ⟨hs, .refl s, hh, fun _ h => by cases h⟩

/-- The key and the size of an item that the thread has. -/
theorem getItem_runs (hF : Lasting flags V F) (hr : 0 < h.items r) :
    Runs flags V t h F (perform (.getItem r)) (fun _ => h)
      fun a tr s => F tr s ∧ Described r a tr s := by
  refine runs_look hF (fun a => lasting_described) fun tr s hs hh hP _ => ?_
  have halive : s.itemHolders r ≠ [] := List.ne_nil_of_mem (alive_item hh hr)
  exact ⟨_, if_neg halive, hs.ledger.counted.lt r halive, rfl, rfl⟩

/-- What was known before the look at a mark was known when it was looked at. -/
theorem getReleased_upon {K : Deeds Atom Atom.Answer → Prop} (hF : Lasting flags V F)
    (hK : ∀ tr s, F tr s → K tr) (hr : 0 < h.items r) :
    Runs flags V t h F (perform (.getReleased r)) (fun _ => h)
      fun a tr s => F tr s ∧ Upon ⟨.getReleased r, a⟩ K tr s := by
  refine runs_look hF (fun _ => persistent_upon) fun tr s hs hh hP _ => ?_
  exact ⟨_, if_neg (List.ne_nil_of_mem (alive_item hh hr)), tr, List.suffix_refl _, hK tr s hP⟩

theorem getReleased_runs (hF : Lasting flags V F) (hr : 0 < h.items r) :
    Runs flags V t h F (perform (.getReleased r)) (fun _ => h)
      fun a tr s => F tr s ∧ ⟨.getReleased r, a⟩ ∈ tr :=
  (getReleased_upon (K := fun _ => True) hF (fun _ _ _ => trivial) hr).post
    fun _ _ _ _ hP => ⟨hP.1, hP.2.mem⟩

theorem release_item (s : Shared) (r r' : ItemRef) :
    ((s.release r).items r').cacheKey = (s.items r').cacheKey ∧
      ((s.release r).items r').value = (s.items r').value := by
  show (update s.items r _ r').cacheKey = _ ∧ (update s.items r _ r').value = _
  by_cases hr : r' = r
  · rw [hr, update_self]
    exact ⟨rfl, rfl⟩
  · rw [update_of_ne hr]
    exact ⟨rfl, rfl⟩

theorem release_spares (hlinked : (s.items r).linked = true) : Spares flags s (s.release r) := by
  have hitems : ∀ r', (s.release r).items r' =
      if r' = r then { s.items r with released := true } else s.items r' := by
    intro r'
    show update s.items r _ r' = _
    by_cases hr : r' = r
    · rw [hr, update_self, if_pos rfl]
    · rw [update_of_ne hr, if_neg hr]
  have hmarks : ∀ r', ((s.release r).items r').linked = (s.items r').linked := by
    intro r'
    rw [hitems]
    split
    next hr => rw [hr]
    next => rfl
  refine ⟨fun r' _ h => (hmarks r').trans h, fun r' _ hfresh => hfresh.alive,
    fun r' _ hfresh hmark => ?_, fun r' _ _ i hwhole => ?_, fun r' _ h h' => ?_⟩
  · have hr : r' ≠ r := by
      rintro rfl
      exact absurd ((hmarks r').symm.trans hfresh.unlinked) (by rw [hlinked]; decide)
    rwa [hitems, if_neg hr]
  · unfold Whole Full part at hwhole ⊢
    rwa [(release_item s r r').2]
  · rw [hmarks, h] at h'
    cases h'

theorem release_runs (hF : Lasting flags V F) (hr : 0 < h.items r)
    (hlinked : Gets flags V F (Linked r)) :
    Runs flags V t h F (perform (.setReleased r)) (fun _ => h)
      fun _ tr s => F tr s ∧ ⟨.setReleased r, ()⟩ ∈ tr := by
  refine runs_change hF (fun _ => persistent_deed) fun tr s hs hh hP =>
    ⟨(), s.release r, fun _ => ?_, ⟨?_, ?_⟩, ?_, hh, List.mem_cons_self⟩
  · exact if_neg (List.ne_nil_of_mem (alive_item hh hr))
  · exact hs.ledger.setItems fun r' => (release_item s r r').2
  · refine hs.contents.setItems (release_item s r) fun r' hr' => ?_
    show (update s.items r _ r').linked = true
    by_cases heq : r' = r
    · rw [heq, update_self]
      exact heq ▸ hr'
    · rwa [update_of_ne heq]
  · exact .of_eq (release_item s r) rfl (fun _ _ => rfl) (release_spares (hlinked tr s hs hP).2)

/-! ## Mutexes -/

theorem Ledger.setMutexes (hs : Ledger flags s) (mutexes : Mutex → List (Nat × Bool)) :
    Ledger flags { s with mutexes := mutexes } := by
  obtain ⟨hblocks, hcounted, hin, hburied⟩ := hs
  exact ⟨⟨hblocks.allocated, hblocks.distinct, hblocks.used, hblocks.lt⟩,
    ⟨hcounted.slot, hcounted.index, hcounted.lt⟩, hin, hburied⟩

theorem Contents.setMutexes (hs : Contents flags V s) (mutexes : Mutex → List (Nat × Bool)) :
    Contents flags V { s with mutexes := mutexes } :=
  ⟨hs.value, hs.memSlot, hs.diskSlot,
    fun m hm => ⟨(hs.mem m hm).owner, (hs.mem m hm).length, (hs.mem m hm).segment⟩, hs.owner,
    hs.hidden, hs.good, hs.indexed⟩

theorem lock_ready (hh : s.held t = h) (hfree : h.Free) {exclusive : Bool} {x : Mutex} :
    (discipline flags V).waits t (.lock exclusive x) s ∨
      ∀ i, (effect flags t (.lock exclusive x) i s).isSome = true := by
  by_cases hadmits : s.Admits exclusive x
  · exact Or.inr fun _ => by simp only [effect, if_pos hadmits, Option.isSome]
  · exact Or.inl ⟨hadmits, hh ▸ hfree⟩

theorem lock_step (hs : Inv flags V s) (hh : s.held t = h) {exclusive : Bool} {x : Mutex}
    {input : Input} {a : Unit} {s' : Shared}
    (heffect : effect flags t (.lock exclusive x) input s = some (a, s')) :
    Inv flags V s' ∧ Guar flags t s s' ∧ s'.held t = h.lock x ∧ s' = s.lock t exclusive x := by
  simp only [effect] at heffect
  split at heffect
  next =>
    cases heffect
    refine ⟨⟨hs.ledger.setMutexes _, hs.contents.setMutexes _⟩,
      .of_eq (fun _ => ⟨rfl, rfl⟩) rfl (fun t' ht => ?_) (.of_same rfl rfl rfl rfl rfl), ?_, rfl⟩
    · rw [held_lock, if_neg ht]
    · rw [held_lock, if_pos rfl, hh]
  next => cases heffect

theorem lock_runs (hF : Lasting flags V F) (hfree : h.Free) {exclusive : Bool} {x : Mutex} :
    Runs flags V t h F (perform (.lock exclusive x)) (fun _ => h.lock x) fun _ => F := by
  refine (runs_perform hF (fun _ => persistent_const True) (.refl F) fun tr s hs hh hP =>
    ⟨lock_ready hh hfree, fun _ a s' heffect => ?_⟩).post fun _ => (Gets.refl F).left
  obtain ⟨hs', hguar, hh', _⟩ := lock_step hs hh heffect
  exact ⟨hs', hguar, hh', trivial⟩

theorem unlock_runs (hF : Lasting flags V F) {x : Mutex} :
    Runs flags V t (h.lock x) F (perform (.unlock x)) (fun _ => h) fun _ => F := by
  refine runs_step hF fun tr s hs hh hP => ⟨(), s.unlock t x, fun _ => ?_,
    ⟨hs.ledger.setMutexes _, hs.contents.setMutexes _⟩,
    .of_eq (fun _ => ⟨rfl, rfl⟩) rfl (fun t' ht => ?_) (.of_same rfl rfl rfl rfl rfl), ?_⟩
  · refine if_pos ?_
    have hpos : 0 < (s.held t).locks x := by
      rw [hh, Held.lock_locks, if_pos rfl]
      exact Nat.succ_pos _
    obtain ⟨y, hy, hyt⟩ := List.countP_pos_iff.mp hpos
    exact List.any_eq_true.mpr ⟨y, hy, hyt⟩
  · rw [held_unlock]
    simp [ht]
  · rw [held_unlock, hh]
    ext y
    · rfl
    · rfl
    · simp [Held.lock_locks]

/-! ## Questions and checks -/

theorem ask_runs (hF : Lasting flags V F) {q : Question} :
    Runs flags V t h F (perform (.ask q)) (fun _ => h) fun _ => F :=
  (runs_look hF (fun _ => persistent_const True) fun _ _ _ _ _ input =>
    ⟨input.answer q, rfl, trivial⟩).post fun _ => (Gets.refl F).left

theorem check_runs (hF : Lasting flags V F) (hfree : h.Free) {c : Bool} :
    Runs flags V t h F (perform (.check c)) (fun _ => h) fun _ tr s => F tr s ∧ c = true := by
  refine runs_perform hF (fun _ => persistent_const _) (.refl F) fun tr s hs hh hP => ?_
  cases c with
  | false => exact ⟨Or.inl ⟨rfl, hh ▸ hfree⟩, fun _ _ _ heffect => by cases heffect⟩
  | true =>
      refine ⟨Or.inr fun _ => rfl, fun _ a s' heffect => ?_⟩
      cases heffect
      exact ⟨hs, .refl s, hh, rfl⟩

/-- Nothing follows the use of an item that is missing. -/
theorem nullItem_runs {α : Type} (hfree : h.Free) {f : Empty → Op α} {h' : α → Held}
    {G : α → Knowledge} : Runs flags V t h F (.act .nullItem f) h' G := by
  intro tr s _ hP
  have hfree : (s.held t).Free := hP.1.symm ▸ hfree
  exact ⟨Or.inl hfree, fun _ a => a.elim⟩

end Sharing

end StarCache
