import StarCache.Sharing.DiskBlocks

/-!
# Giving up blocks and items

The paths on which blocks are cleared, items are marked as released and the index gives them up,
and the eviction of disk blocks, which takes all of them. A thread that goes along one of them
ends with the pointers and the mutexes that it had.
-/

namespace StarCache

namespace Sharing

open Discipline Pool Function Shared

variable {su : Setup} {V : Objects} {t : Nat} {h : Held} {F : Knowledge} {r : ItemRef} {i : Nat}
  {d : DiskRef}

theorem lockBlock_runs (hF : Lasting su.flags V F) (hfree : h.Free) {exclusive : Bool}
    {key : BlockKey} : Runs su.flags V t h F (lockBlock su exclusive key)
      (fun _ => h.lock (su.mutex key)) fun _ => F := lock_runs hF hfree

theorem unlockBlock_runs (hF : Lasting su.flags V F) {key : BlockKey} :
    Runs su.flags V t (h.lock (su.mutex key)) F (unlockBlock su key) (fun _ => h) fun _ => F :=
  unlock_runs hF

/-! ## Marks -/

theorem isReleased_runs {K : Deeds Atom Atom.Answer → Prop} (hF : Lasting su.flags V F)
    (hK : ∀ tr s, F tr s → K tr) (hfree : h.Free) (hr : 0 < h.items r) :
    Runs su.flags V t h F (isReleased r) (fun _ => h)
      fun a tr s => F tr s ∧ Upon ⟨.getReleased r, a⟩ K tr s :=
  (lock_runs hF hfree).bind fun _ =>
    Runs.bind (getReleased_upon hF hK hr) fun _ =>
      (unlock_runs (hF.and persistent_upon)).bind fun _ => runs_pure rfl (.refl _)

theorem isReleased_leaves (hF : Lasting su.flags V F) (hfree : h.Free) (hr : 0 < h.items r) :
    Leaves su.flags V t h F (isReleased r) :=
  Runs.forget (isReleased_runs (K := fun _ => True) hF (fun _ _ _ => trivial) hfree hr)

/-- The item has been seen or marked as released. -/
def Ousted (r : ItemRef) : Knowledge := fun tr _ =>
  ⟨.getReleased r, true⟩ ∈ tr ∨ ⟨.setReleased r, ()⟩ ∈ tr

theorem lasting_ousted : Lasting su.flags V (Ousted r) := fun _ _ _ _ _ _ _ _ hle h =>
  h.imp (fun h => hle.subset h) fun h => hle.subset h

theorem setReleased_runs (hF : Lasting su.flags V F) (hfree : h.Free) (hr : 0 < h.items r)
    (hlinked : Gets su.flags V F (Linked r)) :
    Runs su.flags V t h F (setReleased r) (fun _ => h) fun _ tr s => F tr s ∧ Ousted r tr s := by
  refine (lock_runs hF hfree).bind fun _ => Runs.bind (getReleased_runs hF hr) fun released => ?_
  refine Runs.bind (G := fun _ tr s => F tr s ∧ Ousted r tr s) ?_ fun _ =>
    (unlock_runs (hF.and lasting_ousted)).bind fun _ => runs_pure rfl (.refl _)
  cases released with
  | true => exact runs_pure rfl fun _ _ _ hP => ⟨hP.1, Or.inl hP.2⟩
  | false =>
      show Runs su.flags V t _ _ (perform (.setReleased r)) _ _
      exact (release_runs (h := h.lock (.item r)) (hF.and persistent_deed) hr
        hlinked.left).post fun _ tr s _ hP => ⟨hP.1.1, Or.inr hP.2⟩

theorem blockHeld_leaves (hF : Lasting su.flags V F) (hr : 0 < h.items r)
    (hin : Gets su.flags V F (InItem su.flags r i)) :
    Leaves su.flags V t h F (blockHeld r i) := by
  refine Runs.bind (Runs.forget (getMem_runs hF hr hin)) fun m => ?_
  split
  · exact runs_pure rfl (.refl F)
  · exact hasDisk_runs hF hr hin

theorem releaseLocked_leaves (hF : Lasting su.flags V F) (hr : 0 < h.items r)
    (hlinked : Gets su.flags V F (Linked r)) :
    Leaves su.flags V t h F (releaseLocked su r) := by
  refine Runs.bind (Runs.forget (getReleased_runs hF hr)) fun released => ?_
  split
  · exact runs_pure rfl (.refl F)
  · refine Runs.bind (getItem_runs hF hr) fun item => Runs.forget (K := fun _ => Described r item) ?_
    have hF' := hF.and (lasting_described (r := r) (a := item))
    refine Runs.bind (leaves_forUntil fun i hi => ?_) fun held => ?_
    · exact blockHeld_leaves hF' hr (Described.inItem (List.mem_range.mp hi)).right
    · split
      · exact runs_pure rfl (.refl _)
      · exact Runs.bind (Runs.forget (release_runs hF' hr hlinked.left)) fun _ =>
          runs_pure rfl (.refl _)

theorem releaseIfEmpty_leaves (hF : Lasting su.flags V F) (hfree : h.Free) (hr : 0 < h.items r)
    (hlinked : Gets su.flags V F (Linked r)) :
    Leaves su.flags V t h F (releaseIfEmpty su r) :=
  (lock_runs hF hfree).bind fun _ =>
    Runs.bind (releaseLocked_leaves hF hr hlinked) fun _ =>
      (unlock_runs hF).bind fun _ => runs_pure rfl (.refl F)

/-! ## Blocks -/

theorem clearDiskBlocks_leaves (hF : Lasting su.flags V F) (hfree : h.Free) (hr : 0 < h.items r)
    (hlinked : Gets su.flags V F (Linked r)) :
    Leaves su.flags V t h F (clearDiskBlocks su r) := by
  refine (lock_runs hF hfree).bind fun _ =>
    Runs.bind (getItem_runs hF hr) fun item => Runs.forget (K := fun _ => Described r item) ?_
  have hF' := hF.and (lasting_described (r := r) (a := item))
  refine Runs.bind (runs_forEach fun i hi => ?_) fun _ => unlock_runs hF'
  exact clearDisk_runs hF' hr (Described.inItem (List.mem_range.mp hi)).right hlinked.stale.left

theorem clearBlock_leaves (hF : Lasting su.flags V F) (hfree : h.Free) (hr : 0 < h.items r)
    (hlinked : Gets su.flags V F (Linked r)) {key : BlockKey}
    (hin : Gets su.flags V F (InItem su.flags r key.blockIndex)) :
    Leaves su.flags V t h F (clearBlock su r key) :=
  (lockBlock_runs hF hfree).bind fun _ => Runs.bind
    (setMem_runs (h := h.lock (su.mutex key)) hF hr hin hlinked.stale fun _ h => nomatch h) fun _ =>
      Runs.bind (clearDisk_runs hF hr hin hlinked.stale) fun _ => unlockBlock_runs hF

theorem setMemBlock_leaves (hF : Lasting su.flags V F) (hfree : h.Free) (hr : 0 < h.items r)
    (hlinked : Gets su.flags V F (Linked r)) {key : BlockKey}
    (hin : Gets su.flags V F (InItem su.flags r key.blockIndex))
    {x : Option MemRef} (hx : ∀ m, x = some m → Gets su.flags V F (MemOf m r key.blockIndex)) :
    Leaves su.flags V t h F (setMemBlock su r key x) :=
  (lockBlock_runs hF hfree).bind fun _ =>
    Runs.bind (setMem_runs (h := h.lock (su.mutex key)) hF hr hin hlinked.stale hx) fun _ =>
      unlockBlock_runs hF

/-- A block of an item that the index does not have yet gets all its bytes in memory. -/
theorem placeMemBlock_runs (hF : Lasting su.flags V F) (hfree : h.Free) (hr : 0 < h.items r)
    {key : BlockKey} (hin : Gets su.flags V F (InItem su.flags r key.blockIndex)) {m : MemRef}
    (hm : Gets su.flags V F (MemOf m r key.blockIndex))
    (hfull : Gets su.flags V F fun _ s => s.Full su.flags m r key.blockIndex) :
    Runs su.flags V t h F (setMemBlock su r key (some m)) (fun _ => h)
      fun _ tr s => F tr s ∧ WholeOf su.flags r key.blockIndex tr s :=
  (lockBlock_runs hF hfree).bind fun _ =>
    Runs.bind (placeMem_runs (h := h.lock (su.mutex key)) hF hr hin hm hfull) fun _ =>
      unlockBlock_runs (hF.and lasting_wholeOf)

/-- The index of a block of an object fits its type, so that the loop over the blocks ends. -/
theorem removeCacheItem_leaves (hF : Lasting su.flags V F) (hfree : h.Free) (hr : 0 < h.items r)
    (hlinked : Gets su.flags V F (Linked r)) {id : CacheId} : Leaves su.flags V t h F (removeCacheItem su id r) := by
  refine Runs.bind (erase_runs hF) fun _ => Runs.bind (getItem_runs hF hr) fun item =>
    Runs.forget (K := fun _ => Described r item) ?_
  have hF' := hF.and (lasting_described (r := r) (a := item))
  refine Runs.bind (runs_forEach fun i hi => ?_) fun _ => ?_
  · have hlt := Nat.lt_of_lt_of_le (List.mem_range.mp hi) (Nat.min_le_left ..)
    exact clearBlock_leaves hF' hfree hr hlinked.left (Described.inItem hlt).right
  · refine Runs.given (fun hle => ?_) fun tr s hs _ hP => (Described.le.right tr s hs hP).2
    refine leaves_when fun hbad => ?_
    have hcount := lt_blockCountOf.mp
      (Nat.lt_of_lt_of_le (by decide : 2147483648 < 4294967296) (of_decide_eq_true hbad))
    have := Nat.mul_le_mul_left 2147483648 su.flags.blockSize_pos
    omega

/-! ## Disk eviction -/

theorem processEvictedDiskItems_leaves (hF : Lasting su.flags V F) (hfree : h.Free) :
    ∀ ids, Leaves su.flags V t h F (processEvictedDiskItems su ids)
  | [] => runs_pure rfl (.refl F)
  | id :: rest => by
      refine Runs.bind (find_runs hF) fun x => ?_
      cases x with
      | none => exact runs_pure rfl (.refl F)
      | some r =>
          have hF' := hF.and (@lasting_sought su.flags V r id)
          have hlinked : Gets su.flags V _ (Linked r) := (Sought.linked (k := id)).right (F := F)
          have hr : 0 < (h.item r).items r := by
            rw [Held.item_items, if_pos rfl]
            exact Nat.succ_pos _
          refine Runs.bind (clearDiskBlocks_leaves hF' hfree hr hlinked) fun _ =>
            Runs.bind (releaseIfEmpty_leaves hF' hfree hr hlinked) fun released => ?_
          refine Runs.bind (leaves_when fun _ =>
            removeCacheItem_leaves (h := h.item r) hF' hfree hr hlinked) fun _ => ?_
          exact Runs.bind (Runs.forget (dropItem_runs hF')) fun _ =>
            processEvictedDiskItems_leaves hF hfree rest

theorem evictForDiskBlock_leaves (hF : Lasting su.flags V F) (hfree : h.Free) :
    Leaves su.flags V t h F (evictForDiskBlock su) :=
  (ask_runs hF).bind fun ids => processEvictedDiskItems_leaves hF hfree ids

theorem allocDiskBlock_runs (hF : Lasting su.flags V F) (hfree : h.Free)
    (hin : Gets su.flags V F (InItem su.flags r i)) :
    Runs su.flags V t h F (allocDiskBlock su r i) (fun a => a.elim h h.disk) fun a =>
      a.elim F fun d tr s => F tr s ∧ Filled su.flags d r i (fun _ => False) tr s := by
  exact runs_retry (newDisk_runs hF hin) rfl (.refl F) (.refl F)
    (evictForDiskBlock_leaves hF hfree) _

end Sharing

end StarCache
