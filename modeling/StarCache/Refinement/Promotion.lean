import StarCache.Impl.Read
import StarCache.Refinement.MemEviction
import StarCache.Transition.Retention

/-!
# Promotion

What has been read from disk is put into memory. The allocation of the segments may
evict, even from the block that is being promoted; the slices that are in memory by
then stay there.
-/

namespace StarCache

open Prog MachineInt

/-- A block with slices missing has not been put into memory as a whole. -/
theorem Loaded.not_dirty {flags : Flags} {bytes : IOBuf} {W W' : Nat → Prop} {block : MemBlockItem}
    {segments : SegmentRef → BlockSegment} {segs : List BlockSegment} {seg : BlockSegment}
    (h : Loaded flags bytes W block.slices segs) (hseg : seg ∈ segs)
    (hmem : MemOk flags bytes W' segments block) : block.state ≠ .dirty := by
  intro hdirty
  have hpart := h.segments seg hseg
  obtain ⟨k, hk⟩ := hpart.aligned
  rw [Nat.mul_comm] at hk
  have hpos := hpart.pos
  have hfits := hpart.fits
  have hcovers : seg.Covers flags k := ⟨Nat.le_of_eq hk, by omega⟩
  exact h.fresh seg hseg k hcovers (hmem.dirty hdirty k (by omega))

namespace StarCacheImpl

variable {rt : Runtime} {sc : Scenario rt.toPlatform} {s t : State} {g : Ghost} {r : ItemRef}
  {key : BlockKey}

/-! ## Segments -/

theorem allocSegments_spec : ∀ (segs : List BlockSegment) {s : State}, Inv sc ⟨s, g⟩ →
    Spec sc.T (allocSegments rt key segs) (fun refs t => Ran sc (Action.InEvict none) s g t g ∧
      (∀ ref ∈ refs, .segment ref ∈ t.locals) ∧ (refs.map t.segments).Sublist segs) s
  | [], s, _ => ⟨.refl trivial, (fun _ h => by cases h), List.Sublist.slnil⟩
  | seg :: rest, s, hinv => by
      unfold allocSegments
      simp only [spec_bind]
      have hprivate : s.Private none := fun _ h => by cases h
      refine (allocBlockSegment_spec hinv hprivate key seg.offset seg.size seg.buf).mono ?_
      rintro found u ⟨hu, hnew⟩
      have hinvu := hu.inv hinv
      cases found with
      | none =>
          refine (allocSegments_spec rest hinvu).mono ?_
          rintro refs t ⟨ht, hrefs, hsub⟩
          exact ⟨hu.trans ht, hrefs, hsub.cons _⟩
      | some ref =>
          obtain ⟨hlive, hseg⟩ := hnew ref rfl
          simp only [spec_bind]
          have halive : u.Alive (.segment ref) := hlive
          refine (hold_spec hu halive).mono ?_
          rintro _ v ⟨hv, hveq⟩
          have hinvv := hv.inv hinv
          refine (allocSegments_spec rest hinvv).mono ?_
          rintro refs t ⟨ht, hrefs, hsub⟩
          rw [spec_pure]
          have hheld : .segment ref ∈ v.locals := by
            rw [hveq]
            exact List.mem_cons_self
          refine ⟨hv.trans ht, fun ref' href' => ?_, ?_⟩
          · rcases List.mem_cons.mp href' with rfl | href'
            · exact ht.locals _ hheld
            · exact hrefs ref' href'
          · have hsame : t.segments ref = seg := by
              rw [ht.static.segment ref (hinvv.wf.segment_lt ref (hinvv.wf.local_alive hheld)),
                hveq]
              exact hseg
            rw [List.map_cons, hsame]
            exact hsub.cons_cons _

/-! ## The promoted block -/

/-- A promoted block is tracked, whether it was in use before or not. -/
theorem trackPromoted_spec (hinv : Inv sc ⟨s, g⟩)
    (hran : Ran sc Action.InPromote s g t { g with memOwed := insert key g.memOwed })
    {tracked : Bool} (htracked : tracked = true → s.MemBusy rt.toPlatform key)
    (hfree : tracked = false → ¬ s.MemBusy rt.toPlatform key) (size : Nat) :
    Spec sc.T (Prog.when (!tracked) (MemCache.evictTrack rt.toPlatform key size))
      (fun _ u => Ran sc Action.InPromote s g u g) t := by
  have hinvt := hran.inv hinv
  refine spec_when (fun hcond => ?_) fun hcond => ?_
  · have hnot := Runs.not_memBusy hran.runs hinv (fun h => h) (fun _ h => h)
      (hfree (by simpa using hcond))
    refine (memTrack_spec hran hinvt key (fun _ h => by cases h) size (Or.inl hnot)).mono ?_
    rintro _ u ⟨hu, _, hin⟩
    have hinvu := hu.inv hinv
    exact hu.settle (hinvu.memEvictable.drop fun _ _ _ _ _ _ => (hin key).mpr (Or.inl rfl))
      hinvu.diskEvictable hinvu.nonEmpty
  · refine hran.settle (hinvt.memEvictable.drop fun r' b hfind _ _ _ => ?_) hinvt.diskEvictable
      hinvt.nonEmpty
    rcases Runs.memBusy hran.runs hinv (fun h => h) (fun _ h => h) (fun h => h)
      (Or.inl (htracked (by simpa using hcond))) with hbusy | hgone
    · exact hbusy.1
    · have : some r' = none := hfind.symm.trans hgone
      cases this

/-- The slice map that results is attached to the block. -/
theorem attachPromoted_spec (hinv : Inv sc ⟨s, g⟩) (hheld : .item r ∈ s.locals)
    (hid : s.idOf rt.toPlatform r = key.cacheId)
    (hdisk : s.Indexed r → ∃ b, s.HasBlock r key.blockIndex b ∧ b.diskBlockItem ≠ none)
    (hran : Ran sc Action.InPromote s g t g) {refs : List SegmentRef}
    (halive : ∀ ref ∈ refs, ref ∈ t.liveSegments) {b : BlockItem}
    (hb : t.HasBlock r key.blockIndex b) {old block : MemBlockItem}
    (hold : b.memBlockItem = some old ∨ b.memBlockItem = none ∧ ∀ x, some x ∉ old.slices)
    (hslices : ∀ x, some x ∈ block.slices → some x ∈ old.slices ∨ x ∈ refs)
    (hcontent : sc.D → MemOk rt.flags (blockPart rt.flags (sc.val r) key.blockIndex)
        (sc.whole r key.blockIndex) t.segments block ∧
      ∀ k, Resident old.slices k → Resident block.slices k) :
    Spec sc.T (setMemBlock rt.toPlatform r key.blockIndex (some block)) (fun _ u =>
      Ran sc Action.InPromote s g u { g with memOwed := insert key g.memOwed }) t := by
  have hinvt := hran.inv hinv
  have hlive : r ∈ t.liveItems := hinvt.wf.local_alive (hran.locals _ hheld)
  have hlt := hinv.wf.item_lt r (hinv.wf.local_alive hheld)
  have hkey : (⟨t.idOf rt.toPlatform r, key.blockIndex⟩ : BlockKey) = key := by
    rw [hran.static.idOf hlt, hid]
  have hblock : t.Alive (.memBlock block) := by
    intro x hx
    rcases hslices x hx with hx | hx
    · rcases hold with hold | ⟨_, hnone⟩
      · exact hinvt.wf.mem_alive hlive hb hold x hx
      · exact absurd hx (hnone x)
    · exact halive x hx
  refine (attachMem_spec hran hinvt trivial hblock
    (fun hD => (hcontent hD).1) (fun hindexed => ?_) ?_).mono ?_
  · -- the block was on disk when the promotion began
    obtain ⟨id, hfind⟩ := hindexed
    have hfind₀ := Runs.find hran.runs (fun h => h) hfind
    obtain ⟨b₀, hb₀, hdisk₀⟩ := hdisk ⟨id, hfind₀⟩
    obtain ⟨id₀, hid₀⟩ := Option.ne_none_iff_exists'.mp hdisk₀
    have hlayer := hinv.wf.hasDiskLayer (hinv.wf.disk_live (hinv.wf.local_alive hheld) hb₀ hid₀)
    refine ⟨hran.static.hasDiskLayer.trans hlayer, ?_⟩
    rcases Runs.retain (durable_disk sc.D) hran.runs hinv (fun h => h) (fun h => h) hfind₀
      ⟨b₀, hb₀, hdisk₀⟩ with hharmed | ⟨_, hkept⟩
    · exact Or.inr hharmed
    · exact Or.inl hkept
  · intro hD b' old' hb' hold' k hk
    obtain rfl : b' = b := Option.some.inj (hb'.symm.trans hb)
    rcases hold with hold | ⟨hnone, _⟩
    · rw [hold] at hold'
      cases hold'
      exact (hcontent hD).2 k hk
    · rw [hnone] at hold'
      cases hold'
  · rintro _ u ⟨hu, _⟩
    rwa [hkey] at hu

/-- What a block that is being promoted needs: it is on disk, and `segs` are parts of it that are
not in memory. -/
structure Promotable (sc : Scenario rt.toPlatform) (s : State) (r : ItemRef) (key : BlockKey)
    (segs : List BlockSegment) : Prop where
  held : .item r ∈ s.locals
  home : s.idOf rt.toPlatform r = key.cacheId
  disk : ∃ b, s.HasBlock r key.blockIndex b ∧ b.diskBlockItem ≠ none
  segments : sc.D → ∀ b, s.HasBlock r key.blockIndex b →
    Loaded rt.flags (blockPart rt.flags (sc.val r) key.blockIndex) (sc.whole r key.blockIndex)
      b.slices segs

theorem promoteTouched_spec (hinv : Inv sc ⟨s, g⟩) {segs : List BlockSegment}
    (hpromote : Promotable sc s r key segs) {tracked : Bool}
    (htracked : tracked = true → s.MemBusy rt.toPlatform key)
    (hfree : tracked = false → ¬ s.MemBusy rt.toPlatform key) :
    Spec sc.T (promoteTouched rt r key segs tracked) (fun _ t =>
      Ran sc Action.InPromote s g t g) s := by
  obtain ⟨hheld, hid, hdisk, hsegs⟩ := hpromote
  unfold promoteTouched
  simp only [spec_bind]
  refine (allocSegments_spec segs hinv).mono ?_
  rintro refs u ⟨hu, hrefs, hsub⟩
  have hu' : Ran sc Action.InPromote s g u g := hu.mono fun _ => Action.InEvict.inPromote
  refine spec_ite (fun _ => hu') fun hsome => ?_
  obtain ⟨ref₀, href₀⟩ : ∃ ref, ref ∈ refs := by
    cases refs with
    | nil => exact absurd rfl hsome
    | cons ref _ => exact ⟨ref, List.mem_cons_self⟩
  simp only [spec_bind]
  refine (lock_spec hu' true key).mono ?_
  rintro _ v ⟨hv, hveq⟩
  have hinvv := hv.inv hinv
  have hlivev : r ∈ v.liveItems := hinvv.wf.local_alive (hv.locals _ hheld)
  obtain ⟨b₀, hb₀, hdisk₀⟩ := hdisk
  obtain ⟨b₁, hb₁⟩ := hv.static.hasBlock hinv.wf hinvv.wf (hinv.wf.local_alive hheld) hlivev hb₀
  refine getBlock_spec (fun _ => (List.getElem?_eq_some_iff.mp hb₁).1) fun b hb => ?_
  have halive : ∀ ref ∈ refs, ref ∈ v.liveSegments := by
    intro ref href
    have hlocal : .segment ref ∈ v.locals := by
      rw [hveq]
      exact hrefs ref href
    exact hinvv.wf.local_alive hlocal
  -- the parts are still not in memory
  have hrefsv : sc.D → ∀ old : MemBlockItem, b.memBlockItem = some old ∨
      (∀ k, ¬ Resident old.slices k) →
        Loaded rt.flags (blockPart rt.flags (sc.val r) key.blockIndex)
          (sc.whole r key.blockIndex) old.slices (refs.map v.segments) := by
    intro hD old hold
    have hsubv : (refs.map v.segments).Sublist segs := by
      rw [hveq]
      exact hsub
    have hall := (hsegs hD b₀ hb₀).sublist hsubv
    refine ⟨hall.segments, hall.apart, ?_, hall.fills⟩
    intro seg hseg k hk
    rcases hold with hold | hempty
    · have hbu : u.HasBlock r key.blockIndex b := by
        rw [hveq] at hb
        exact hb
      obtain ⟨b₂, hb₂, hmem₂⟩ := Runs.memBlock hu.runs
        (hinv.wf.item_lt r (hinv.wf.local_alive hheld)) (fun h => h) hbu hold
      obtain rfl : b₂ = b₀ := Option.some.inj (hb₂.symm.trans hb₀)
      have hfresh := hall.fresh seg hseg k hk
      unfold BlockItem.slices at hfresh
      rw [hmem₂] at hfresh
      exact hfresh
    · exact hempty k
  have hgeo : sc.D → Geometry rt.flags := fun hD => (sc.data hD).toGeometry
  have hT : sc.T → sc.D := sc.total
  cases hmem : b.memBlockItem with
  | none =>
      simp only [spec_bind]
      refine (unlock_spec hv true key).mono ?_
      rintro _ w ⟨hw, hweq⟩
      have hws : w.segments = v.segments := by rw [hweq]
      refine (writeBlock_spec (blockPart rt.flags (sc.val r) key.blockIndex)
        (W := sc.whole r key.blockIndex) hT fun hD => ⟨hgeo hD, length_blockPart_le _ _ _,
          slicesOk_new (hgeo hD) _, ?_⟩).mono ?_
      · rw [hws]
        exact hrefsv hD _ (Or.inr fun k => not_resident_new)
      rintro block w' ⟨rfl, hslices, hcontent⟩
      refine (lock_spec hw true key).mono ?_
      rintro _ x ⟨hx, hxeq⟩
      have hxv : x = { v with locks := x.locks } := by rw [hxeq, hweq]
      refine (attachPromoted_spec hinv hheld hid (fun _ => ⟨b₀, hb₀, hdisk₀⟩) hx ?_ ?_
        (Or.inr ⟨hmem, fun y hy => ?_⟩) hslices fun hD => ?_).mono ?_
      · rw [hxv]
        exact halive
      · rw [hxv]
        exact hb
      · cases List.eq_of_mem_replicate hy
      · obtain ⟨hstate, hok, hkeep, _⟩ := hcontent hD
        rw [hxv, ← hws]
        exact ⟨hok.memOk (by rw [hstate]; exact BlockState.noConfusion), hkeep⟩
      rintro _ y hy
      refine (unlock_spec hy true key).mono ?_
      rintro _ z ⟨hz, _⟩
      exact trackPromoted_spec hinv hz htracked hfree _
  | some old =>
      simp only [spec_bind]
      refine (writeBlock_spec (blockPart rt.flags (sc.val r) key.blockIndex)
        (W := sc.whole r key.blockIndex) hT fun hD => ⟨hgeo hD, length_blockPart_le _ _ _, ?_,
          hrefsv hD old (Or.inl hmem)⟩).mono ?_
      · exact ((hinvv.content hD r hlivev).mem _ b old hb hmem).slices.mono fun _ _ _ h =>
          Or.inl (Or.inl h)
      rintro block w' ⟨rfl, hslices, hcontent⟩
      refine (attachPromoted_spec hinv hheld hid (fun _ => ⟨b₀, hb₀, hdisk₀⟩) hv halive hb
        (Or.inl hmem) hslices fun hD => ?_).mono ?_
      · obtain ⟨hstate, hok, hkeep, _⟩ := hcontent hD
        have hclean := (hrefsv hD old (Or.inl hmem)).not_dirty (List.mem_map_of_mem href₀)
          ((hinvv.content hD r hlivev).mem _ b old hb hmem)
        exact ⟨hok.memOk (hstate ▸ hclean), hkeep⟩
      rintro _ y hy
      refine (unlock_spec hy true key).mono ?_
      rintro _ z ⟨hz, _⟩
      exact trackPromoted_spec hinv hz htracked hfree _

/-- `_promote_block_segments` leaves no obligation open. -/
theorem promoteBlockSegments_spec (hinv : Inv sc ⟨s, g⟩) {segs : List BlockSegment}
    (hpromote : Promotable sc s r key segs) :
    Spec sc.T (promoteBlockSegments rt r key segs) (fun _ t => Ran sc Action.InRead s g t g)
      s := by
  have hother : Action.InRead .other := trivial
  have htouch : Action.InRead .touchMem := trivial
  unfold promoteBlockSegments
  simp only [spec_bind]
  refine (memTouch_spec hinv hother htouch key true).mono ?_
  rintro handle u ⟨hu, hueq, hbusy, hnot, _⟩
  have hinvu := hinv.runs hu
  have hstart : Ran sc Action.InPromote u g u g := .refl trivial
  have hpromoteu : Promotable sc u r key segs := by
    rw [hueq]
    exact ⟨hpromote.held, hpromote.home, hpromote.disk, hpromote.segments⟩
  have hbody : Spec sc.T (promoteTouched rt r key segs handle.isSome) (fun _ t =>
      Ran sc Action.InPromote u g t g ∧ True) u := by
    refine (promoteTouched_spec hinvu hpromoteu hbusy fun hnone h => ?_).mono fun _ _ h =>
      ⟨h, trivial⟩
    exact hnot rfl (by simpa using hnone) h.1
  refine (scope_spec hstart (fun _ => g) (fun _ _ => True) hinvu hbody).mono ?_
  rintro _ v ⟨hv, hlocals, _⟩
  have hhandles : v.memHandles = handle.toList ++ s.memHandles := by
    rw [hv.memHandles, hueq]
  refine (memRelease_spec (hv.inv hinvu) htouch hhandles).mono ?_
  rintro _ t ⟨ht, hteq, _⟩
  refine ⟨hother, (hu.trans (hv.mono fun _ => Action.InPromote.inRead).runs).trans ht, ?_, ?_, ?_⟩
  · intro x hx
    rw [hteq]
    dsimp only
    rw [hlocals, hueq]
    exact hx
  · rw [hteq]
  · rw [hteq]
    dsimp only
    rw [hv.diskHandles, hueq]

end StarCacheImpl

end StarCache
