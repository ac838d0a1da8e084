import StarCache.Refinement.Runs
import Mathlib.Algebra.Order.Field.Basic

/-!
# Admission of small blocks

`check_admission` draws a number and compares its greatest value instead. A block of a
small object is therefore never flushed and never deleted: it goes back to the eviction
policy with all it holds, whatever has been drawn.
-/

namespace StarCache

open Prog MachineInt StarCacheImpl

/-- The decision when the draw `r` is compared. -/
def drawnAdmission (flags : Flags) (size r : Nat) : BlockAdmission :=
  let sizeRatio : Rat := size / flags.admissionMaxCheckSize
  let probability : Rat := r / randGeneratorMax
  if probability < sizeRatio * flags.admissionFlushProbability then .flush
  else if probability < sizeRatio * flags.admissionDeleteProbability then .delete
  else .skip

section Decision

variable {flags : Flags} {size r : Nat}

theorem drawnAdmission_skip : drawnAdmission flags size r = .skip ↔
    (size : Rat) / flags.admissionMaxCheckSize * flags.admissionFlushProbability ≤
        r / randGeneratorMax ∧
      (size : Rat) / flags.admissionMaxCheckSize * flags.admissionDeleteProbability ≤
        r / randGeneratorMax := by
  unfold drawnAdmission
  dsimp only
  split
  next hflush => simp [not_le.mpr hflush]
  next hflush =>
    split
    next hdelete => simp [not_le.mpr hdelete]
    next hdelete => simp [not_lt.mp hflush, not_lt.mp hdelete]

/-- A configured probability, scaled by the size. -/
theorem scaled_le_one (hsize : size < flags.admissionMaxCheckSize) {p : Rat} (hlow : 0 ≤ p)
    (hhigh : p ≤ 1) : (size : Rat) / flags.admissionMaxCheckSize * p ≤ 1 := by
  have hmax : (0 : Rat) < flags.admissionMaxCheckSize := by
    exact_mod_cast Nat.zero_lt_of_lt hsize
  have hratio : (size : Rat) / flags.admissionMaxCheckSize ≤ 1 := by
    rw [div_le_one hmax]
    exact_mod_cast hsize.le
  exact mul_le_one₀ hratio hlow hhigh

theorem checkAdmission_skip (hflush : 0 ≤ flags.admissionFlushProbability)
    (hflush' : flags.admissionFlushProbability ≤ 1)
    (hdelete : 0 ≤ flags.admissionDeleteProbability)
    (hdelete' : flags.admissionDeleteProbability ≤ 1) (n : Nat) (s : State) {item : CacheItem}
    (hsize : item.size < flags.admissionMaxCheckSize) (key : BlockKey) :
    (sizeBasedAdmissionPolicy flags).checkAdmission n s item key = .skip := by
  have hone : (1 : Rat) ≤ randGeneratorMax := by decide
  unfold sizeBasedAdmissionPolicy
  dsimp only
  rw [if_neg (Nat.not_le.mpr hsize), if_neg, if_neg]
  · exact not_lt.mpr ((scaled_le_one hsize hdelete hdelete').trans hone)
  · exact not_lt.mpr ((scaled_le_one hsize hflush hflush').trans hone)

end Decision

/-! ## A block that is not admitted -/

namespace StarCacheImpl

variable {rt : Runtime} {sc : Scenario rt.toPlatform} {s t : State} {g : Ghost} {r : ItemRef}
  {key : BlockKey} {b : BlockItem} {memBlock : MemBlockItem}

/-- The admission policy keeps the block, whatever it draws. -/
def Skips (rt : Runtime) (item : CacheItem) (key : BlockKey) : Prop :=
  ∀ n s, rt.admissionPolicy.checkAdmission n s item key = .skip

/-- The item is as it was, and the block is tracked. -/
def Retracked (pf : Platform) (s : State) (r : ItemRef) (key : BlockKey) (t : State) : Prop :=
  t.items r = s.items r ∧ t.MemTracked pf key

theorem Retracked.collects {pf : Platform} {s t u : State} {r : ItemRef} {key : BlockKey}
    {locals : List Local} (h : Retracked pf s r key t)
    (heffect : Collects { t with locals := locals } u) : Retracked pf s r key u := by
  obtain ⟨hitem, hin⟩ := h
  have hkept : u.items r = t.items r := by rw [heffect.eq]
  have htracker : u.memTracker = t.memTracker := by rw [heffect.eq]
  refine ⟨hkept.trans hitem, ?_⟩
  unfold State.MemTracked at hin ⊢
  rwa [htracker]

theorem flushTouched_skips (hinv : Inv sc ⟨s, g⟩) (hlive : r ∈ s.liveItems)
    (hb : s.HasBlock r key.blockIndex b) (hmem : b.memBlockItem = some memBlock)
    (hlayer : s.hasDiskLayer = true) (hpinned : (s.items r).pinned = false)
    (hskips : Skips rt (s.items r) key) (hfree : ¬ s.MemBusy rt.toPlatform key) (tracked : Bool) :
    Spec True (flushTouched rt r key tracked) (fun _ t =>
      Ran sc (Action.InDisk none) s g t g ∧ Retracked rt.toPlatform s r key t) s := by
  have hstart : Ran sc (Action.InDisk none) s g s g := .refl trivial
  have hlt := (List.getElem?_eq_some_iff.mp hb).1
  unfold flushTouched
  simp only [spec_bind]
  apply getBlock_spec fun _ => hlt
  intro b' hb'
  obtain rfl : b' = b := Option.some.inj (hb'.symm.trans hb)
  rw [hmem]
  simp only [spec_bind, spec_read]
  apply (hold_spec hstart (hinv.wf.mem_alive hlive hb hmem)).mono
  intro _ u hu
  obtain ⟨hu, hueq⟩ := hu
  apply (tick_spec hu).mono
  intro n v hv
  obtain ⟨hv, _, hveq⟩ := hv
  have hvs : v = { s with locals := v.locals, clock := v.clock } := by rw [hveq, hueq]
  have hitem : v.items r = s.items r := by rw [hvs]
  have hadmission : flushAdmission rt n v (v.items r) key = .skip := by
    have hlayerv : v.hasDiskLayer = true := by
      rw [hvs]
      exact hlayer
    unfold flushAdmission
    rw [hitem, hpinned, hlayerv]
    exact hskips n v
  have hfreev : ¬ v.MemBusy rt.toPlatform key := by
    rw [hvs]
    exact hfree
  rw [hadmission, hitem, hpinned]
  simp only [spec_bind, Bool.not_false]
  apply (memTrack_spec hv (hv.inv hinv) key (fun _ h => by cases h) _ (Or.inl hfreev)).mono
  intro _ t ht
  obtain ⟨ht, hteq, hin⟩ := ht
  rw [spec_pure]
  refine ⟨ht, ?_, (hin key).mpr (Or.inl rfl)⟩
  rw [hteq]
  exact hitem

theorem flushBlock_skips (hinv : Inv sc ⟨s, g⟩) (hfound : s.find key.cacheId = some r)
    (hb : s.HasBlock r key.blockIndex b) (hmem : b.memBlockItem = some memBlock)
    (hlayer : s.hasDiskLayer = true) (hpinned : (s.items r).pinned = false)
    (hskips : Skips rt (s.items r) key) (hfree : ¬ s.MemBusy rt.toPlatform key) :
    Spec True (flushBlock rt r key) (fun _ t =>
      Ran sc (Action.InEvict none) s g t g ∧ Retracked rt.toPlatform s r key t) s := by
  apply flushBlock_walk hinv hfound
  · intro handle t hat hinvt _
    have hitem : t.items r = s.items r := by rw [hat.eq]
    have hbody : Spec True (flushTouched rt r key handle.isSome) (fun _ u =>
        Ran sc (Action.InDisk none) t g u g ∧ Retracked rt.toPlatform t r key u) t := by
      have hbt : t.HasBlock r key.blockIndex b := by
        unfold State.HasBlock
        rw [hitem]
        exact hb
      apply flushTouched_skips hinvt ?_ hbt hmem
      · rw [hat.eq]
        exact hlayer
      · rw [hitem]
        exact hpinned
      · rw [hitem]
        exact hskips
      · rw [hat.eq]
        exact hfree
      · rw [hat.eq]
        exact hinv.wf.indexed_live hfound
    apply hbody.mono
    intro _ u hu
    exact ⟨hu.1, hu.2.1.trans hitem, hu.2.2⟩
  · intro t u v ht heffect hv
    have hleft : Retracked rt.toPlatform s r key u := ht.collects heffect
    rw [hv]
    exact hleft

/-- The eviction of a block that is not admitted. -/
theorem processEvictedMemItem_skips (hinv : Inv sc ⟨s, g⟩) (hfound : s.find key.cacheId = some r)
    (hb : s.HasBlock r key.blockIndex b) (hmem : b.memBlockItem = some memBlock)
    (hdirty : memBlock.state = .dirty ∨ b.diskBlockItem = none)
    (hlayer : s.hasDiskLayer = true) (hpinned : (s.items r).pinned = false)
    (hskips : Skips rt (s.items r) key) (hfree : ¬ s.MemBusy rt.toPlatform key) :
    Spec True (processEvictedMemItem rt key r) (fun _ => Retracked rt.toPlatform s r key) s := by
  have hwalk : Spec True (processEvictedMemItem rt key r) (fun _ t =>
      Ran sc (Action.InEvict none) s g t g ∧ Retracked rt.toPlatform s r key t) s := by
    apply processEvictedMemItem_walk hinv hfound (fun _ h => by cases h) hb hmem
    · intro _ t hat hinvt _
      have hitem : t.items r = s.items r := by rw [hat.eq]
      have hflush : Spec True (flushBlock rt r key) (fun _ u =>
          Ran sc (Action.InEvict none) t g u g ∧ Retracked rt.toPlatform t r key u) t := by
        apply flushBlock_skips hinvt ?_ ?_ hmem
        · rw [hat.eq]
          exact hlayer
        · rw [hitem]
          exact hpinned
        · rw [hitem]
          exact hskips
        · rw [hat.eq]
          exact hfree
        · rw [hat.eq]
          exact hfound
        · rw [hat.eq]
          exact hb
      apply hflush.mono
      intro _ u hu
      exact ⟨hu.1, hu.2.1.trans hitem, hu.2.2⟩
    · exact fun hclean => absurd hdirty hclean
    · exact fun t u ht heffect => ht.collects heffect
  exact hwalk.mono fun _ _ h => h.2

end StarCacheImpl

/-- A block of a small unpinned object in a cache with disks that eviction hands to
`_flush_block`. -/
structure State.ToFlush (pf : Platform) (s : State) (key : BlockKey) (r : ItemRef) : Prop where
  found : s.find key.cacheId = some r
  small : (s.items r).size < pf.flags.admissionMaxCheckSize
  unpinned : (s.items r).pinned = false
  layer : s.hasDiskLayer = true
  block : ∃ b memBlock, s.HasBlock r key.blockIndex b ∧ b.memBlockItem = some memBlock ∧
    (memBlock.state = .dirty ∨ b.diskBlockItem = none)
  free : ¬ s.MemBusy pf key

section Admission

variable {pf : Platform}

/-- The decision is the right one only for the draws that keep the block, and no draw makes an
eviction release it. -/
theorem admission_by_draw (hflush : 0 ≤ pf.flags.admissionFlushProbability)
    (hflush' : pf.flags.admissionFlushProbability ≤ 1)
    (hdelete : 0 ≤ pf.flags.admissionDeleteProbability)
    (hdelete' : pf.flags.admissionDeleteProbability ≤ 1) :
    (∀ n s (item : CacheItem) key r, item.size < pf.flags.admissionMaxCheckSize →
      ((sizeBasedAdmissionPolicy pf.flags).checkAdmission n s item key =
          drawnAdmission pf.flags item.size r ↔
        (item.size : Rat) / pf.flags.admissionMaxCheckSize * pf.flags.admissionFlushProbability ≤
            r / randGeneratorMax ∧
          (item.size : Rat) / pf.flags.admissionMaxCheckSize *
            pf.flags.admissionDeleteProbability ≤ r / randGeneratorMax)) ∧
    ∀ (sc : Scenario pf) (s : State) (g : Ghost) key r, Inv sc ⟨s, g⟩ → s.ToFlush pf key r →
      ∃ t, processEvictedMemBlocks (.standard pf) [key] s = some ((), t) ∧
        t.items r = s.items r ∧ t.MemTracked pf key := by
  have hskip := fun n s item key hsize =>
    @checkAdmission_skip pf.flags hflush hflush' hdelete hdelete' n s item hsize key
  constructor
  · intro n s item key r hsize
    rw [hskip n s item key hsize, ← drawnAdmission_skip]
    exact eq_comm
  · intro sc s g key r hinv hevicted
    obtain ⟨hfound, hsize, hpinned, hlayer, ⟨b, memBlock, hb, hmem, hdirty⟩, hfree⟩ := hevicted
    have hitem : Spec True (processEvictedMemItem (.standard pf) key r)
        (fun _ => Retracked pf s r key) s :=
      @processEvictedMemItem_skips (.standard pf) sc s g r key b memBlock hinv hfound hb hmem hdirty
        hlayer hpinned (fun n u => hskip n u (s.items r) key hsize) hfree
    have hpass : Spec True (processEvictedMemBlocks (.standard pf) [key])
        (fun _ => Retracked pf s r key) s := by
      unfold processEvictedMemBlocks forEach processEvictedMemBlock
      simp only [spec_bind, spec_read, hfound]
      exact hitem.mono fun _ _ h => h
    obtain ⟨⟨⟩, t, ht, hretracked⟩ := hpass.defined trivial
    exact ⟨t, ht, hretracked⟩

/-- A block of 4 bytes where objects of up to 100 bytes are checked. -/
theorem admission_by_draw_small : ∃ history s t,
    Run (.simple { Flags.small with admissionMaxCheckSize := 100 } .reliable) (.oneDir 100 8)
      history s ∧
    processEvictedMemBlocks (.simple { Flags.small with admissionMaxCheckSize := 100 } .reliable)
      [⟨1, 0⟩] s.reset = some ((), t) ∧ t.items 0 = s.items 0 := by
  obtain ⟨history, s, hrun, hp⟩ := Run.of_calls
    (.simple { Flags.small with admissionMaxCheckSize := 100 } .reliable) (.oneDir 100 8)
    [.set [1] [1, 2, 3, 4] none]
    (fun _ s => decide (s.find 1 = some 0 ∧ (s.items 0).size = 4 ∧ (s.items 0).pinned = false ∧
      s.hasDiskLayer = true) && (s.items 0).blocks[0]?.any fun (b : BlockItem) =>
        b.memBlockItem.isSome && decide (b.diskBlockItem = none)) (by decide +kernel)
  rw [Bool.and_eq_true, decide_eq_true_eq] at hp
  obtain ⟨⟨hfound, hsize, hpinned, hlayer⟩, hblock⟩ := hp
  obtain ⟨b, hb, hblock⟩ := (Option.any_eq_true _ _).mp hblock
  rw [Bool.and_eq_true, decide_eq_true_eq, Option.isSome_iff_exists] at hblock
  obtain ⟨⟨memBlock, hmem⟩, hdisk⟩ := hblock
  obtain ⟨val, hsound⟩ := hrun.sound
  have hfree := hsound.quiet.reset.not_memBusy hsound.inv.wf ⟨1, 0⟩
  have hsmall : (s.items 0).size < 100 := by
    rw [hsize]
    decide
  obtain ⟨t, ht, hsame, _⟩ := (admission_by_draw (by decide) (by decide) (by decide)
    (by decide)).2 _ s.reset _ ⟨1, 0⟩ 0 hsound.inv
      ⟨hfound, hsmall, hpinned, hlayer, ⟨b, memBlock, hb, hmem, Or.inr hdisk⟩, hfree⟩
  exact ⟨history, s, t, hrun, ht, hsame⟩

/-- The least draw decides to flush the block; the block stays in memory, with all its bytes
still charged. -/
theorem admission_not_by_draw : ∃ history s t,
    Run (.simple { Flags.small with admissionMaxCheckSize := 100 } .reliable) (.oneDir 100 8)
      history s ∧
    drawnAdmission { Flags.small with admissionMaxCheckSize := 100 } (s.items 0).size 1 = .flush ∧
    (sizeBasedAdmissionPolicy { Flags.small with admissionMaxCheckSize := 100 }).checkAdmission
      0 s (s.items 0) ⟨1, 0⟩ = .skip ∧
    processEvictedMemBlocks (.simple { Flags.small with admissionMaxCheckSize := 100 } .reliable)
      [⟨1, 0⟩] s = some ((), t) ∧
    0 < s.memSpace.usedBytes ∧ t.memSpace.usedBytes = s.memSpace.usedBytes := by
  obtain ⟨history, s, hrun, hp⟩ := Run.of_calls
    (.simple { Flags.small with admissionMaxCheckSize := 100 } .reliable) (.oneDir 100 8)
    [.set [1] [1, 2, 3, 4] none]
    (fun _ s => decide (drawnAdmission { Flags.small with admissionMaxCheckSize := 100 }
        (s.items 0).size 1 = .flush ∧
      (sizeBasedAdmissionPolicy { Flags.small with admissionMaxCheckSize := 100 }).checkAdmission
        0 s (s.items 0) ⟨1, 0⟩ = .skip ∧ 0 < s.memSpace.usedBytes) &&
      (processEvictedMemBlocks (.simple { Flags.small with admissionMaxCheckSize := 100 } .reliable)
        [⟨1, 0⟩] s).any fun (x : Unit × State) =>
          decide (x.2.memSpace.usedBytes = s.memSpace.usedBytes)) (by decide +kernel)
  rw [Bool.and_eq_true, decide_eq_true_eq] at hp
  obtain ⟨⟨hdrawn, hskip, hused⟩, hpass⟩ := hp
  obtain ⟨x, hx, hsame⟩ := (Option.any_eq_true _ _).mp hpass
  exact ⟨history, s, x.2, hrun, hdrawn, hskip, hx, hused, of_decide_eq_true hsame⟩

end Admission

end StarCache
