import StarCache.Refinement.Flush

/-!
# Memory eviction and allocation

An eviction pass owes a decision for each key it has taken from the policy; with
the processing of a key its obligation ends.
-/

namespace StarCache

open Prog MachineInt

namespace StarCacheImpl

variable {rt : Runtime} {sc : Scenario rt.toPlatform} {s t : State} {g : Ghost}
  {own : Option Own} {r : ItemRef} {key : BlockKey} {b : BlockItem} {memBlock : MemBlockItem}

/-- An eviction has come from `s` to the flush of a block in memory, in the state `t`. -/
structure AtFlush (s : State) (key : BlockKey) (r : ItemRef) (memBlock : MemBlockItem) (t : State) :
    Prop where
  reached : ∃ u v w, hold (.item r) s = some ((), u) ∧ lock true key u = some ((), v) ∧
    hold (.memBlock memBlock) v = some ((), w) ∧ unlock true key w = some ((), t)
  eq : t = { s with locals := .memBlock memBlock :: .item r :: s.locals, locks := t.locks }

/-- A block in memory is flushed, or it leaves memory if it is clean and on disk already. -/
theorem processEvictedMemItem_walk {T : Prop} {Q : State → Prop} (hinv : Inv sc ⟨s, g⟩)
    (hfound : s.find key.cacheId = some r) (hchange : Action.InEvict own (.change r))
    (hb : s.HasBlock r key.blockIndex b) (hmem : b.memBlockItem = some memBlock)
    (hflush : memBlock.state = .dirty ∨ b.diskBlockItem = none →
      ∀ t, AtFlush s key r memBlock t → Inv sc ⟨t, g⟩ → Ran sc (Action.InEvict own) s g t g →
        Spec T (flushBlock rt r key) (fun _ u => Ran sc (Action.InEvict own) t g u g ∧ Q u) t)
    (hdrop : ¬ (memBlock.state = .dirty ∨ b.diskBlockItem = none) → ∀ t u v : State,
      t = { s with locals := t.locals, locks := t.locks } →
      Collects (t.withItem r ((t.items r).updateBlock key.blockIndex fun b =>
        { b with memBlockItem := none })) u → v = { u with locks := v.locks } → Q v)
    (hleave : ∀ t u, Q t → Collects { t with locals := s.locals } u → Q u) :
    Spec T (processEvictedMemItem rt key r) (fun _ t =>
      Ran sc (Action.InEvict own) s g t g ∧ Q t) s := by
  have hstart : Ran sc (Action.InEvict own) s g s g := .refl trivial
  have hlive := hinv.wf.indexed_live hfound
  have hlen : (s.items r).blocks.length = (s.items r).blockCount rt.flags :=
    hinv.wf.length r hlive
  have hlt := (List.getElem?_eq_some_iff.mp hb).1
  unfold processEvictedMemItem
  apply (scope_spec hstart (fun _ => g) (fun _ => Q) hinv ?_).mono
  · intro _ t ht
    obtain ⟨ht, _, _, u, hu, heffect⟩ := ht
    exact ⟨ht, hleave u t hu heffect⟩
  simp only [spec_bind, spec_read]
  have halive : s.Alive (.item r) := hlive
  apply (hold_spec hstart halive).imp
  intro _ u hhold hu
  obtain ⟨hu, hueq⟩ := hu
  apply (lock_spec hu true key).imp
  intro _ v hlock hv
  obtain ⟨hv, hveq⟩ := hv
  have hvs : v = { s with locals := .item r :: s.locals, locks := v.locks } := by
    rw [hveq, hueq]
  have hbv : v.HasBlock r key.blockIndex b := by
    rw [hvs]
    exact hb
  have hsome : ¬ (v.items r).blockCount rt.flags ≤ key.blockIndex := by
    rw [hvs]
    exact Nat.not_le.mpr (hlen ▸ hlt)
  rw [if_neg hsome]
  simp only [spec_bind]
  apply getBlock_spec fun _ => (List.getElem?_eq_some_iff.mp hbv).1
  intro b' hb'
  obtain rfl : b' = b := Option.some.inj (hb'.symm.trans hbv)
  rw [hmem]
  simp only [spec_bind]
  have hlivev := (hv.inv hinv).wf.local_alive (hvs ▸ List.mem_cons_self : .item r ∈ v.locals)
  apply (hold_spec hv ((hv.inv hinv).wf.mem_alive hlivev hbv hmem)).imp
  intro _ w hhold' hw
  obtain ⟨hw, hweq⟩ := hw
  apply spec_ite
  · intro hdirty
    simp only [spec_bind]
    apply (unlock_spec hw true key).imp
    intro _ x hunlock hx
    obtain ⟨hx, hxeq⟩ := hx
    have hat : AtFlush s key r memBlock x := by
      refine ⟨⟨u, v, w, hhold, hlock, hhold', hunlock⟩, ?_⟩
      rw [hxeq, hweq, hvs]
    apply (hflush hdirty x hat (hx.inv hinv) hx).mono
    intro _ y hy
    exact ⟨hx.trans hy.1, hy.2⟩
  · intro hclean
    have hinvw := hw.inv hinv
    have hws : w = { s with locals := w.locals, locks := w.locks } := by rw [hweq, hvs]
    have hdisk : b'.diskBlockItem ≠ none := (not_or.mp hclean).2
    obtain ⟨id, hid⟩ := Option.ne_none_iff_exists'.mp hdisk
    have hbw : w.HasBlock r key.blockIndex b' := by
      rw [hws]
      exact hb
    have hlayer := hinvw.wf.hasDiskLayer (hinvw.wf.disk_live (by rw [hws]; exact hlive) hbw hid)
    simp only [spec_bind]
    apply (dropMem_spec hw hinvw hchange fun _ => ⟨hlayer, Or.inl ⟨b', hbw, hdisk⟩⟩).mono
    intro _ x hx
    obtain ⟨hx, heffect⟩ := hx
    have hran : Ran sc (Action.InEvict own) s g x g :=
      hx.dropped hinv heffect (Or.inl ⟨b', hbw, hdisk⟩)
    apply (unlock_spec hran true key).mono
    intro _ y hy
    obtain ⟨hy, hyeq⟩ := hy
    exact ⟨hy, hdrop hclean w x y hws heffect hyeq⟩

/-- There may be no such block in memory, as the key may belong to an item that has been
replaced. -/
theorem processEvictedMemItem_nothing {T : Prop} (hinv : Inv sc ⟨s, g⟩)
    (hfound : s.find key.cacheId = some r)
    (hnone : ∀ b, s.HasBlock r key.blockIndex b → b.memBlockItem = none) :
    Spec T (processEvictedMemItem rt key r) (fun _ t =>
      Ran sc (Action.InEvict own) s g t g ∧ MemSettled rt.toPlatform key t) s := by
  have hstart : Ran sc (Action.InEvict own) s g s g := .refl trivial
  have hlive := hinv.wf.indexed_live hfound
  have hlen : (s.items r).blocks.length = (s.items r).blockCount rt.flags :=
    hinv.wf.length r hlive
  have hsettled : ∀ t, t = { s with locals := t.locals, locks := t.locks } →
      MemSettled rt.toPlatform key t := by
    intro t ht r' b hf hb hne
    rw [ht] at hf hb
    have hf' : s.find key.cacheId = some r' := hf
    rw [hfound] at hf'
    cases hf'
    exact absurd (hnone b hb) hne
  unfold processEvictedMemItem
  apply (scope_spec hstart (fun _ => g) (fun _ => MemSettled rt.toPlatform key) hinv ?_).mono
  · intro _ t ht
    obtain ⟨ht, _, _, u, hu, heffect⟩ := ht
    exact ⟨ht, heffect.memSettled hu⟩
  simp only [spec_bind, spec_read]
  have halive : s.Alive (.item r) := hlive
  apply (hold_spec hstart halive).mono
  intro _ u hu
  obtain ⟨hu, hueq⟩ := hu
  apply (lock_spec hu true key).mono
  intro _ v hv
  obtain ⟨hv, hveq⟩ := hv
  have hitem : v.items r = s.items r := by rw [hveq, hueq]
  have hunlock : Spec T (unlock true key) (fun _ t =>
      Ran sc (Action.InEvict own) s g t g ∧ MemSettled rt.toPlatform key t) v := by
    apply (unlock_spec hv true key).mono
    intro _ w hw
    obtain ⟨hw, hweq⟩ := hw
    exact ⟨hw, hsettled w (by rw [hweq, hveq, hueq])⟩
  apply spec_ite
  · intro _
    exact hunlock
  · intro hlt
    rw [hitem] at hlt
    simp only [spec_bind]
    apply getBlock_spec
    · intro _
      rw [hitem, hlen]
      exact Nat.not_le.mp hlt
    · intro b hb
      unfold State.HasBlock at hb
      rw [hitem] at hb
      rw [hnone b hb]
      exact hunlock

theorem processEvictedMemItem_spec (hinv : Inv sc ⟨s, g⟩) (hprivate : s.Private own)
    (hfound : s.find key.cacheId = some r) (hfree : ¬ s.MemBusy rt.toPlatform key) :
    Spec sc.T (processEvictedMemItem rt key r) (fun _ t =>
      Ran sc (Action.InEvict own) s g t g ∧ MemSettled rt.toPlatform key t) s := by
  by_cases hblock : ∃ b memBlock, s.HasBlock r key.blockIndex b ∧ b.memBlockItem = some memBlock
  · obtain ⟨b, memBlock, hb, hmem⟩ := hblock
    apply processEvictedMemItem_walk hinv hfound (hprivate.item_ne hfound) hb hmem
    · intro hflush t hat hinvt ht
      apply flushBlock_spec hinvt (hprivate.moves ht.runs fun _ h => h)
      · rw [hat.eq]
        exact hfound
      · rw [hat.eq]
        exact List.mem_cons_of_mem _ List.mem_cons_self
      · rw [hat.eq, ← hinv.wf.length r (hinv.wf.indexed_live hfound)]
        exact (List.getElem?_eq_some_iff.mp hb).1
      · rw [hat.eq]
        intro b' memBlock' hb' hmem'
        cases hb.symm.trans hb'
        cases hmem.symm.trans hmem'
        exact hflush
      · rw [hat.eq]
        exact hfree
    · -- the block is out of memory
      intro _ t u v ht heffect hv r' b' hf hb' hne _
      rw [hv] at hf hb'
      have hf' : u.find key.cacheId = some r' := hf
      rw [heffect.find] at hf'
      have hf'' : t.find key.cacheId = some r' := hf'
      rw [ht] at hf''
      have hr : some r' = some r := hf''.symm.trans hfound
      cases hr
      obtain ⟨b₁, _, rfl⟩ := State.hasBlock_updateBlock.mp (heffect.hasBlock.mp hb')
      rw [if_pos ⟨rfl, rfl⟩] at hne
      exact absurd rfl hne
    · exact fun t u ht heffect => heffect.memSettled ht
  · apply processEvictedMemItem_nothing hinv hfound
    intro b hb
    cases hmem : b.memBlockItem with
    | none => rfl
    | some memBlock => exact absurd ⟨b, memBlock, hb, hmem⟩ hblock

theorem processEvictedMemBlock_spec (g : Ghost)
    (hinv : Inv sc ⟨s, { g with memOwed := insert key g.memOwed }⟩) (hprivate : s.Private own) (hfree : ¬ s.MemBusy rt.toPlatform key) :
    Spec sc.T (processEvictedMemBlock rt key) (fun _ t => Ran sc (Action.InEvict own) s
      { g with memOwed := insert key g.memOwed } t g) s := by
  have hsettle : ∀ t, Ran sc (Action.InEvict own) s { g with memOwed := insert key g.memOwed } t
      { g with memOwed := insert key g.memOwed } → MemSettled rt.toPlatform key t →
        Ran sc (Action.InEvict own) s { g with memOwed := insert key g.memOwed } t g := by
    intro t ht hsettled
    have hinvt := ht.inv hinv
    exact ht.settle (hinvt.memEvictable.drop hsettled) hinvt.diskEvictable hinvt.nonEmpty
  unfold processEvictedMemBlock
  simp only [spec_bind, spec_read]
  cases hfind : s.find key.cacheId with
  | none =>
      refine hsettle s (.refl trivial) fun r b hf => ?_
      rw [hfind] at hf
      cases hf
  | some r =>
      exact (processEvictedMemItem_spec hinv hprivate hfind hfree).mono fun _ t ht =>
        hsettle t ht.1 ht.2

theorem processEvictedMemBlocks_spec (keys : List BlockKey)
    (hinv : Inv sc ⟨s, { g with memOwed := {key | key ∈ keys} ∪ g.memOwed }⟩)
    (hprivate : s.Private own) (hfree : ∀ key ∈ keys, ¬ s.MemBusy rt.toPlatform key) :
    Spec sc.T (processEvictedMemBlocks rt keys) (fun _ t => Ran sc (Action.InEvict own) s
      { g with memOwed := {key | key ∈ keys} ∪ g.memOwed } t g) s := by
  have hstart : Ran sc (Action.InEvict own) s { g with memOwed := {key | key ∈ keys} ∪ g.memOwed }
      s { g with memOwed := {key | key ∈ keys} ∪ g.memOwed } := .refl trivial
  unfold processEvictedMemBlocks
  refine (spec_forEach (fun rest t => Ran sc (Action.InEvict own) s
    { g with memOwed := {key | key ∈ keys} ∪ g.memOwed } t
    { g with memOwed := {key | key ∈ rest} ∪ g.memOwed } ∧
      ∀ key ∈ rest, ¬ t.MemBusy rt.toPlatform key) ?_ keys s ⟨hstart, hfree⟩).mono ?_
  · rintro key rest t ⟨ht, hfree'⟩
    have hinvt := ht.inv hinv
    -- the obligation of the head, apart from those of the rest
    have hhead : Ran sc (Action.InEvict own) s
        { g with memOwed := {key | key ∈ keys} ∪ g.memOwed } t
        { g with memOwed := insert key ({key | key ∈ rest} ∪ g.memOwed) } := by
      refine ht.settle (hinvt.memEvictable.mono fun key' h => ?_) hinvt.diskEvictable
        hinvt.nonEmpty
      rcases h with h | h
      · exact (List.mem_cons.mp h).imp_right Or.inl
      · exact Or.inr (Or.inr h)
    refine (processEvictedMemBlock_spec { g with memOwed := {key | key ∈ rest} ∪ g.memOwed }
      (hhead.inv hinv) (hprivate.moves ht.runs fun _ h => h)
      (hfree' key List.mem_cons_self)).mono ?_
    rintro _ u hu
    refine ⟨hhead.trans hu, fun key' hkey' => ?_⟩
    exact Runs.not_memBusy hu.runs (hhead.inv hinv) (fun h => h) (fun _ h => h)
      (hfree' key' (List.mem_cons_of_mem _ hkey'))
  · rintro _ t ⟨ht, _⟩
    have hinvt := ht.inv hinv
    exact ht.settle (hinvt.memEvictable.mono (by simp)) hinvt.diskEvictable hinvt.nonEmpty

theorem evictMemBlock_spec (hinv : Inv sc ⟨s, g⟩) (hprivate : s.Private own) (size : Nat) :
    Spec sc.T (evictMemBlock rt size) (fun _ t => Ran sc (Action.InEvict own) s g t g) s := by
  have hstart : Ran sc (Action.InEvict own) s g s g := .refl trivial
  unfold evictMemBlock
  simp only [spec_bind]
  refine (memEvict_spec hstart hinv _).mono ?_
  rintro keys u ⟨hu, _, hfree, _⟩
  exact (processEvictedMemBlocks_spec keys (hu.inv hinv) (hprivate.moves hu.runs fun _ h => h)
    hfree).mono fun _ t ht => hu.trans ht

theorem evictForMemBlock_spec (hinv : Inv sc ⟨s, g⟩) (hprivate : s.Private own) (key : BlockKey)
    (size : Nat) :
    Spec sc.T (evictForMemBlock rt key size) (fun _ t => Ran sc (Action.InEvict own) s g t g)
      s := by
  have hstart : Ran sc (Action.InEvict own) s g s g := .refl trivial
  unfold evictForMemBlock
  simp only [spec_bind]
  refine (memEvictFor_spec hstart hinv key _).mono ?_
  rintro keys u ⟨hu, _, hfree, _⟩
  exact (processEvictedMemBlocks_spec keys (hu.inv hinv) (hprivate.moves hu.runs fun _ h => h)
    hfree).mono fun _ t ht => hu.trans ht

theorem allocBlockSegment_spec (hinv : Inv sc ⟨s, g⟩) (hprivate : s.Private own) (key : BlockKey)
    (offset size : Nat) (buf : IOBuf) :
    Spec sc.T (allocBlockSegment rt key offset size buf) (fun found t =>
      Ran sc (Action.InEvict own) s g t g ∧
      ∀ ref, found = some ref → ref ∈ t.liveSegments ∧ t.segments ref = ⟨offset, size, buf⟩) s := by
  unfold allocBlockSegment
  refine spec_retry (fun t => Ran sc (Action.InEvict own) s g t g) _ (fun i t ht => ?_)
    (fun t ht => ?_) (fun t ht => ⟨ht, fun _ => nofun⟩) _ _ s (.refl trivial)
  · refine (newSegment_spec ht offset size buf _).mono ?_
    rintro found u ⟨hu, hnew⟩
    cases found with
    | none => exact hu
    | some ref => exact ⟨hu, hnew⟩
  · exact (evictForMemBlock_spec (ht.inv hinv) (hprivate.moves ht.runs fun _ h => h) key _).mono
      fun _ u hu => ht.trans hu

end StarCacheImpl

end StarCache
