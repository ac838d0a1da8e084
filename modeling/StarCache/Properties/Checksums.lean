import StarCache.Properties.Merging

/-!
# Checksums of a block

A write stores one checksum for each slice it covers, a read compares one for each slice it
covers. The pieces agree whenever both begin at a slice and end at one or with the block, which
holds for the writes that put a whole block on disk and for every range that a read asks for. So
a read of intact data never fails verification.
-/

namespace StarCache

open Prog MachineInt DiskCache StarCacheImpl

/-! ## Cutting -/

/-- A slice and the bytes of it that one checksum is about, by their places in the block. -/
structure Cut where
  index : Int
  start : Nat
  stop : Nat

/-- How the checksum loops cut a segment. -/
def cuts (flags : Flags) (seg : BlockSegment) : List Cut :=
  (checksumPieces flags seg.offset seg.size).map fun p =>
    ⟨p.index, seg.offset + p.offset, seg.offset + p.offset + p.size⟩

section Cuts

variable {flags : Flags} {bytes : IOBuf} {seg : BlockSegment} {cut : Cut}

end Cuts

/-! ## Writing -/

section Written

variable {pf : Platform} {bytes : IOBuf} {id : BlockId} {segs : List BlockSegment} {s t : State}

/-- The segment of a direct write. -/
def wholeSegment (bytes : IOBuf) : BlockSegment := ⟨0, u32 bytes.length, bytes⟩

/-- The successful writes that put a whole block on disk, with the segments they wrote: a direct
write of the block, and a flush of memory segments that cover all of it. -/
inductive Written (pf : Platform) (bytes : IOBuf) (id : BlockId) :
    List BlockSegment → State → Prop
  | direct {s t : State} {st : Status}
      (hrun : DiskCache.writeBlock pf id (wholeSegment bytes) s = some (st, t))
      (hok : st.ok = true) : Written pf bytes id [wholeSegment bytes] t
  | flushed {s t : State} {st : Status} {segs : List BlockSegment}
      (hsegs : ∀ seg ∈ segs, SegmentOk pf.flags bytes seg)
      (hcover : ∀ k, k * pf.flags.sliceSize < bytes.length → ∃ seg ∈ segs, seg.Covers pf.flags k)
      (hrun : writeSegments pf id segs s = some (st, t)) (hok : st.ok = true) :
      Written pf bytes id segs t

theorem writeBlock_slices {seg : BlockSegment} (hdata : DataHyp pf)
    (hlen : bytes.length ≤ pf.flags.blockSize) (hseg : SegmentOk pf.flags bytes seg) :
    Spec False (DiskCache.writeBlock pf id seg)
      (fun st t => WroteSlices pf bytes seg s t id st.ok) s := by
  apply (DiskCache.writeBlock_spec (D := True) (fun _ => hdata) (fun _ => trivial) id
    (fun _ => ⟨hseg, hlen⟩) False.elim).mono
  intro st t ht
  exact ht.2 trivial

/-- A successful flush adds the slices it covers to those on disk. -/
theorem writeSegments_onDisk (hdata : DataHyp pf) (hlen : bytes.length ≤ pf.flags.blockSize)
    (hsegs : ∀ seg ∈ segs, SegmentOk pf.flags bytes seg) :
    Spec False (writeSegments pf id segs) (fun st t => st.ok = true → ∀ k,
      SliceOnDisk pf s bytes id k ∨ (∃ seg ∈ segs, seg.Covers pf.flags k) →
        SliceOnDisk pf t bytes id k) s := by
  induction segs generalizing s with
  | nil =>
      intro _ k hk
      apply hk.resolve_right
      intro hcov
      obtain ⟨seg, hseg, _⟩ := hcov
      cases hseg
  | cons seg rest ih =>
      unfold writeSegments forUntil
      rw [spec_bind]
      apply (writeBlock_slices hdata hlen (hsegs seg List.mem_cons_self)).mono
      intro st u hslices
      apply spec_ite
      · intro hfail hok
        rw [hok] at hfail
        cases hfail
      · intro hgo
        have hok : st.ok = true := by simpa using hgo
        apply (ih fun seg' hseg' => hsegs seg' (List.mem_cons_of_mem _ hseg')).mono
        intro st' t ht hok' k hk
        apply ht hok' k
        cases hk with
        | inl hold => exact Or.inl (hslices.keep k hold)
        | inr hcov =>
            obtain ⟨seg', hseg', hcov⟩ := hcov
            cases List.mem_cons.mp hseg' with
            | inl heq =>
                subst heq
                exact Or.inl (hslices.written hok k hcov)
            | inr hrest => exact Or.inr ⟨seg', hrest, hcov⟩

/-- The writes consist of good segments that cover the block. -/
theorem Written.segments (h : Written pf bytes id segs t) (hgeo : Geometry pf.flags)
    (hlen : bytes.length ≤ pf.flags.blockSize) (hpos : 0 < bytes.length) :
    (∀ seg ∈ segs, SegmentOk pf.flags bytes seg) ∧
      ∀ k, k * pf.flags.sliceSize < bytes.length → ∃ seg ∈ segs, seg.Covers pf.flags k := by
  cases h with
  | flushed hsegs hcover _ _ => exact ⟨hsegs, hcover⟩
  | direct _ _ =>
      constructor
      · intro seg hseg
        rw [List.mem_singleton] at hseg
        subst hseg
        exact segmentOk_whole hgeo hpos hlen
      · intro k hk
        refine ⟨_, List.mem_singleton_self _, Nat.zero_le _, ?_⟩
        have hle := hgeo.block_le
        unfold wholeSegment
        dsimp only
        rw [u32_of_lt (by omega), Nat.zero_add]
        exact hk

theorem Written.onDisk (h : Written pf bytes id segs t) (hdata : DataHyp pf)
    (hlen : bytes.length ≤ pf.flags.blockSize) (hpos : 0 < bytes.length) :
    BlockOnDisk pf t bytes id := by
  obtain ⟨hsegs, hcover⟩ := h.segments hdata.toGeometry hlen hpos
  intro k hk
  cases h with
  | flushed _ _ hrun hok =>
      exact (writeSegments_onDisk hdata hlen hsegs).outcome hrun hok k (Or.inr (hcover k hk))
  | direct hrun hok =>
      obtain ⟨seg, hseg, hcov⟩ := hcover k hk
      rw [List.mem_singleton] at hseg
      subst hseg
      have hwhole := hsegs _ (List.mem_singleton_self _)
      exact ((writeBlock_slices hdata hlen hwhole).outcome hrun).written hok k hcov

end Written

/-! ## Reading -/

/-- Neither was the offset refused nor did the verification fail. -/
def Accepted (st : Status) : Prop :=
  st ≠ ⟨EINVAL, "offset must be aligned by slice size"⟩ ∧
    st ≠ ⟨E_INTERNAL, "fail to verify checksum for cache"⟩

instance (st : Status) : Decidable (Accepted st) :=
  inferInstanceAs (Decidable (_ ∧ _))

theorem accepted_of_errorStr {st : Status}
    (halign : st.errorStr ≠ "offset must be aligned by slice size")
    (hverify : st.errorStr ≠ "fail to verify checksum for cache") : Accepted st := by
  constructor
  · intro heq
    rw [heq] at halign
    exact halign rfl
  · intro heq
    rw [heq] at hverify
    exact hverify rfl

theorem accepted_OK : Accepted .OK := by decide

section Read

variable {pf : Platform} {bytes : IOBuf} {id : BlockId} {s : State}

/-- Without overflow of the count a read yields what the file holds. -/
theorem BlockFile.read_full (hdata : DataHyp pf)
    (hcount : ∀ n size count, pf.env.pread n size = .ok count → count < 2147483648) (pos : FilePos)
    (size : Nat) :
    Spec False (BlockFile.read pf pos size) (fun res t => t = { s with clock := s.clock + 1 } ∧
      Accepted res.1 ∧
      (res.1.ok = true → res.2 = readBytes s.files pos (BlockFile.alignedSize pf.flags size))) s := by
  unfold BlockFile.read tick
  rw [spec_bind, spec_modifyGet]
  apply spec_ite
  · intro _
    refine ⟨rfl, accepted_of_errorStr (by decide) (by decide), ?_⟩
    intro hok
    cases hok
  · intro _
    split
    next e _ =>
      refine ⟨rfl, accepted_of_errorStr ?_ ?_, ?_⟩
      · show "fail to read block file" ≠ _
        decide
      · show "fail to read block file" ≠ _
        decide
      · intro hok
        rw [BlockFile.ioError_not_ok] at hok
        cases hok
    next count hpread =>
      have hle := hcount _ _ _ hpread
      have hfull := hdata.pread _ _ _ hpread
      rw [if_neg (by rw [i32_of_lt hle]; omega), spec_bind, spec_read]
      refine ⟨rfl, accepted_OK, ?_⟩
      intro _
      dsimp only
      rw [hfull, Nat.min_self, BlockFile.length_readBytes, Nat.sub_self, List.range_zero,
        List.map_nil, List.append_nil]

theorem diskTouch_aside {α : Type} {cacheId : CacheId} {m : Prog State α} {T : Prop}
    {Q : α → State → Prop} (h : ∀ t, Aside pf s t → Spec T m Q t) :
    Spec T (do
      let handle ← DiskCache.evictTouch pf cacheId false
      DiskCache.evictRelease handle
      m) Q s := by
  unfold DiskCache.evictTouch DiskCache.evictRelease tick
  simp only [spec_bind, spec_modifyGet]
  apply spec_ite
  · intro _
    rw [spec_modifyGet, spec_modify]
    dsimp only
    apply h
    cases hr : (s.diskTracker.touch pf.cacheIdHash cacheId).1 with
    | none => exact ⟨rfl, Nat.le_succ _, fun hinv => (LruEvictionPolicy.Inv.touch_none hinv hr).2⟩
    | some handle =>
        refine ⟨rfl, Nat.le_succ _, ?_⟩
        intro hinv
        obtain ⟨_, htouched⟩ := LruEvictionPolicy.Inv.touch_some hinv hr
        simpa [LruEvictionPolicy.releaseHandle] using (LruEvictionPolicy.Inv.release htouched).1
  · intro _
    rw [spec_pure, spec_modify]
    apply h
    exact ⟨rfl, Nat.le_succ _, id⟩

/-- Reading a part of a block in the way reads of objects do is accepted, and yields that part. -/
theorem BlockOnDisk.answers (hdata : DataHyp pf)
    (hcount : ∀ n size count, pf.env.pread n size = .ok count → count < 2147483648)
    (hlen : bytes.length ≤ pf.flags.blockSize) (hblock : BlockOnDisk pf s bytes id)
    (cacheId : CacheId) : Answers pf bytes cacheId id False Accepted s := by
  intro t ht lo hi hrange
  have hsum : lo + (hi - lo) = hi := by
    have := hrange.lt
    omega
  have hon : BlockOnDisk pf t bytes id := by
    apply hblock.of_eq
    all_goals rw [ht.eq]
  unfold DiskCache.readBlock
  rw [spec_bind, spec_read]
  apply spec_ite
  · intro _
    refine ⟨.refl, accepted_of_errorStr (by decide) (by decide), ?_⟩
    intro hok
    cases hok
  · intro _
    apply diskTouch_aside
    intro u hu
    have hfiles : u.files = t.files := by rw [hu.eq]
    have hsums : u.checksums = t.checksums := by rw [hu.eq]
    rw [if_neg (not_not.mpr (Nat.mod_eq_zero_of_dvd hrange.aligned)), spec_bind]
    apply (DiskCache.locate_spec id lo False.elim).mono
    intro pos v hv
    obtain ⟨hv, hpos⟩ := hv
    subst hv hpos
    rw [spec_bind]
    apply (BlockFile.read_full hdata hcount _ _).mono
    intro res w hw
    obtain ⟨hw, hst, hbytes⟩ := hw
    have hwfiles : w.files = t.files := by rw [hw, hfiles]
    have hwsums : w.checksums = t.checksums := by rw [hw, hsums]
    have haside : Aside pf t w := by
      apply hu.trans
      rw [hw]
      exact ⟨rfl, Nat.le_succ _, fun htracker => htracker⟩
    apply spec_ite
    · intro hfail
      refine ⟨haside, hst, ?_⟩
      intro hok
      rw [hok] at hfail
      cases hfail
    · intro hgo
      have hok : res.1.ok = true := by simpa using hgo
      have hseg : SegmentOk pf.flags bytes ⟨lo, hi - lo, res.2⟩ := by
        rw [hbytes hok, hfiles]
        apply readBytes_segmentOk hdata hon hlen hrange.aligned
        · have := hrange.lt
          omega
        · rw [hsum]
          exact hrange.le
        · rw [hsum]
          exact hrange.ends
      have htake := hseg.part.take_buf
      apply spec_ite
      · intro henabled
        rw [spec_bind]
        apply (DiskCache.checkBlockChecksum_spec (R := True) bytes id henabled False.elim
          fun _ => ⟨hdata.toGeometry, hseg, hlen, hon.of_eq hwfiles hwsums⟩).mono
        intro passed x hx
        obtain ⟨hx, hpassed⟩ := hx
        subst hx
        rw [hpassed trivial]
        exact ⟨haside, accepted_OK, fun _ => htake⟩
      · intro _
        exact ⟨haside, accepted_OK, fun _ => htake⟩

end Read

/-! ## Reading an object -/

/-- Reads of more bytes than an `int` counts fail, all other calls succeed. -/
def Env.counted : Env :=
  { Env.reliable with
    pread := fun _ size => if size < 2147483648 then .ok size else .error ⟨22, by decide⟩ }

/-- Direct reads and writes of whole slices, with a checksum for each slice. -/
def Flags.direct : Flags :=
  { Flags.small with
    enableOsPageCache := false, ioAlignUnitSize := 2, ioAlignUnitSize_pos := Nat.two_pos }

end StarCache
