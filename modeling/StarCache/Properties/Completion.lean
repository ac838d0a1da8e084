import StarCache.Properties.SharedOwnership
import StarCache.Sharing.Costs

/-!
# Calls that come to an end

However the steps of the calls are ordered, and whatever the policies, the space manager and the
disks answer: a call takes a bounded number of actions, as long as objects are of bounded size and
an eviction gives back a bounded number of objects at a time. There are no retries without end and
no rounds of threads that keep each other busy.
-/

namespace StarCache

namespace Sharing

open Discipline Pool Thread Function Shared

variable {su : Setup} {lim : Limits} {files : Nat → Nat → Nat → UInt8} {past : Past}
  {p q : Flight} {t : Nat}

/-- An eviction gives back so many blocks or objects at a time. -/
def Modest (lim : Limits) : (e : Atom) → e.Answer → Prop
  | .ask .memEvicted, keys => keys.length ≤ lim.evicted
  | .ask .diskEvicted, ids => ids.length ≤ lim.evicted
  | _, _ => True

/-! ## What actions answer -/

/-- A memory block has no more slices than a block. -/
def Shared.Sliced (flags : Flags) (s : Shared) : Prop :=
  ∀ m, (s.memBlocks m).slices.length ≤ sliceCount flags

theorem effect_sliced {flags : Flags} {e : Atom} {input : Input} {s s' : Shared} {a : e.Answer}
    (h : effect flags t e input s = some (a, s')) (hs : s.Sliced flags) : s'.Sliced flags := by
  have hgives : ∀ {s₁ : Shared}, Gives s s₁ → s₁.Sliced flags := fun hg => by
    rw [hg.eq]
    exact hs
  cases e with
  | insert id r =>
      unfold effect at h
      dsimp only at h
      split at h
      · cases h
        exact @hgives (s.clearIndex flags id) (clearIndex_gives ..)
      · cases h
  | erase id =>
      cases h
      exact hgives (clearIndex_gives ..)
  | dropItem r =>
      unfold effect at h
      dsimp only at h
      split at h
      · cases h
        exact hgives (dropItem_gives ..)
      · cases h
  | setDisk r i d =>
      unfold effect at h
      cases d with
      | none =>
          dsimp only at h
          split at h
          · cases h
            exact hgives (clearDisk_gives ..)
          · cases h
      | some d =>
          dsimp only at h
          split at h
          · cases h
            exact @hgives (s.clearDisk r i) (clearDisk_gives ..)
          · cases h
  | newMem r i state =>
      cases h
      intro m
      by_cases hm : m = s.memCount
      · subst hm
        unfold addMem MemBlockItem.new
        dsimp only
        rw [update_self, List.length_replicate]
        exact blockSliceCount_le flags
      · show ((update s.memBlocks s.memCount _) m).slices.length ≤ _
        rw [update_of_ne hm]
        exact hs m
  | setSlice m k g =>
      unfold effect at h
      dsimp only at h
      split at h
      · cases h
        intro m'
        show ((update s.memBlocks m _) m').slices.length ≤ _
        by_cases hm : m' = m
        · subst hm
          rw [update_self, List.length_set]
          exact hs m'
        · rw [update_of_ne hm]
          exact hs m'
      · cases h
  | writeDisk d seg =>
      unfold effect at h
      dsimp only at h
      split at h
      · cases h
      · have hs' := congrArg Prod.snd (Option.some.inj h)
        rw [← show _ = s' from hs']
        unfold writeDisk
        split
        · exact hs
        · dsimp only
          split <;> exact hs
  | _ =>
      -- the others do not touch memory blocks
      unfold effect at h
      dsimp only at h
      repeat' split at h
      all_goals first
        | (cases h; exact hs)
        | cases h
        | (obtain ⟨x, _, heq⟩ := Option.map_eq_some_iff.mp h; cases heq; exact hs)

theorem cut_length {segments : SegmentRef → BlockSegment} (c : MemCache.Cursor) (length : Nat) :
    (c.cut segments length).length ≤ c.segments.length + 1 := by
  unfold MemCache.Cursor.cut
  split
  · exact Nat.le_succ _
  · exact Nat.le_of_eq List.length_append

/-- Each slice that is visited adds one segment at most. -/
theorem readSlices_length {flags : Flags} {segments : SegmentRef → BlockSegment}
    {slices : List (Option SegmentRef)} {k n : Nat} {c c' : MemCache.Cursor}
    (hk : k < slices.length)
    (h : (List.range' (k + 1) n).foldlM (MemCache.readSlice flags segments slices) c = some c') :
    c'.segments.length ≤ c.segments.length + n ∧ k + n < slices.length := by
  induction n generalizing k c with
  | zero =>
      cases h
      exact ⟨Nat.le_refl _, hk⟩
  | succ n ih =>
      rw [List.range'_succ, List.foldlM_cons] at h
      obtain ⟨c₁, hslice, hrest⟩ := Option.bind_eq_some_iff.mp h
      unfold MemCache.readSlice at hslice
      split at hslice
      · cases hslice
      next x hx =>
        obtain ⟨hlt, _⟩ := List.getElem?_eq_some_iff.mp hx
        obtain ⟨hlen, hend⟩ := ih hlt hrest
        have hc₁ : c₁.segments.length ≤ c.segments.length + 1 := by
          split at hslice
          · cases hslice
            exact Nat.le_succ _
          · cases hslice
            exact cut_length ..
        omega

theorem readSegments_length {flags : Flags} {segments : SegmentRef → BlockSegment}
    {slices : List (Option SegmentRef)} {offset : Int} {size : Nat} {segs : List BlockSegment}
    (h : MemCache.readSegments flags segments slices offset size = some segs) :
    segs.length ≤ slices.length := by
  obtain ⟨lo, hlo⟩ : ∃ lo, off2slice flags offset = lo := ⟨_, rfl⟩
  obtain ⟨hi, hhi⟩ : ∃ hi, off2slice flags (offset + size - 1) = hi := ⟨_, rfl⟩
  simp only [MemCache.readSegments, hlo, hhi] at h
  by_cases hneg : lo < 0
  · rw [if_pos hneg] at h
    cases h
  · rw [if_neg hneg] at h
    cases hx : slices[lo.toNat]? with
    | none => simp only [hx, reduceCtorEq] at h
    | some x =>
        obtain ⟨hlt, _⟩ := List.getElem?_eq_some_iff.mp hx
        cases hc : (List.range' (lo.toNat + 1) (hi - lo).toNat).foldlM
            (MemCache.readSlice flags segments slices) ⟨x, offset, size, []⟩ with
        | none => simp only [hx, hc, reduceCtorEq] at h
        | some c =>
            simp only [hx, hc, Option.some.injEq] at h
            subst h
            obtain ⟨hlen, hend⟩ := readSlices_length hlt hc
            have hcut := @cut_length segments c c.size
            rw [List.length_nil, Nat.zero_add] at hlen
            omega

/-- In a state as it should be, answers keep to the limits. -/
theorem effect_allowed {flags : Flags} {V : Objects} {e : Atom} {input : Input} {s s' : Shared}
    {a : e.Answer} (h : effect flags t e input s = some (a, s')) (hinv : Inv flags V s)
    (hs : s.Sliced flags)
    (hV : ∀ cacheKey value, V.Has cacheKey value → blockCountOf flags value.length ≤ lim.blocks)
    (hmodest : Modest lim e a) : Allowed flags lim e a := by
  cases e with
  | getItem r =>
      unfold effect at h
      dsimp only at h
      split at h
      · cases h
      next hr =>
        cases h
        have hvalue := hinv.contents.value r (hinv.ledger.counted.lt r hr)
        exact ⟨V.pos hvalue, hV _ _ hvalue⟩
  | readMem m offset size =>
      obtain ⟨segs, hread, heq⟩ := Option.map_eq_some_iff.mp h
      cases heq
      exact (readSegments_length hread).trans (hs m)
  | setSlice m k g =>
      unfold effect at h
      dsimp only at h
      split at h
      next hk => exact ⟨hk.1, hk.2.trans_le (Int.ofNat_le.mpr (hs m))⟩
      next => cases h
  | ask q => cases q <;> exact hmodest
  | _ => trivial

/-- In a run of calls on objects and with evictions of bounded size, all answers keep to the
limits. -/
theorem reaches_answers (hflags : Sized su.flags) (hrun : CheckedRun su files past p)
    (hcalls : Calls Call.Proper past) (hsmall : Calls (Call.Small su.flags lim) past)
    (hmodest : Pool.Answers (Modest lim) past) :
    Pool.Answers (Allowed su.flags lim) past ∧ p.shared.Sliced su.flags := by
  induction hrun with
  | init => exact ⟨fun _ _ _ _ h => (nomatch h), fun m => Nat.zero_le _⟩
  | @step past p q l hrun hstep ih =>
      obtain ⟨hanswers, hsliced⟩ := ih hcalls.tail hsmall.tail hmodest.tail
      cases hstep with
      | start | exit =>
          refine ⟨fun p t e a h => ?_, hsliced⟩
          rcases List.mem_cons.mp h with h | h
          · cases h
          · exact hanswers p t e a h
      | @act _ t e next i a s hact heffect =>
          refine ⟨fun p' t' e' a' h => ?_, effect_sliced heffect hsliced⟩
          rcases List.mem_cons.mp h with heq | h
          swap
          · exact hanswers p' t' e' a' h
          · cases heq
            obtain ⟨hinv, _⟩ := reaches_inv hflags hrun hcalls.tail
            refine effect_allowed heffect hinv hsliced ?_ (hmodest p t e a h)
            rintro cacheKey value ⟨_, _, p₀, t₀, overwrite, hstart⟩
            exact hsmall p₀ t₀ _ (List.mem_cons_of_mem _ hstart)

/-! ## Runs -/

/-- No index is too short for its loop. -/
theorem not_endless (hflags : Sized su.flags) (hrun : CheckedRun su files past p)
    (hcalls : Calls Call.Proper past) {m : Op (Call × Status × IOBuf)}
    (hm : p.threads t = some m) : m.head ≠ some .endless := by
  rintro hhead
  cases m with
  | done result => cases hhead
  | act e next =>
      obtain rfl := Option.some.inj hhead
      rcases (calls_outlined hflags (objectsOf past) files).ready hrun (calls_within hcalls) hm with
        hwaits | hready
      · exact hwaits
      · cases hready .calm

/-- Where objects have so many blocks at most, and evictions give back so many at a time: no thread
is in a loop that does not end, a call never takes more than `callCost` actions, and a run has no
more steps than these and the two of the call itself for each call that has started. -/
theorem calls_bounded (hflags : Sized su.flags) (hreaches : Reaches su files past p)
    (hpast : Regular past) (hsmall : Calls (Call.Small su.flags lim) past)
    (hmodest : Pool.Answers (Modest lim) past) :
    (∀ t m, p.threads t = some m → m.head ≠ some .endless) ∧
      (∀ t, (deeds t past).length ≤ callCost su lim) ∧
      past.length ≤ starts past * (callCost su lim + 2) := by
  have hrun := Reaches.checked hreaches hpast
  obtain ⟨hanswers, _⟩ := reaches_answers hflags hrun hpast.proper hsmall hmodest
  refine ⟨fun t m hm => not_endless hflags hrun hpast.proper hm, fun t => ?_,
    hrun.length_le (fun c => costs_call) hsmall hanswers⟩
  have hspends := hrun.spends (fun c => costs_call) hsmall hanswers t
  cases hm : p.threads t with
  | none => rwa [hm] at hspends
  | some m =>
      rw [hm] at hspends
      obtain ⟨n, _, hle⟩ := hspends
      exact (Nat.le_add_right ..).trans hle

/-- There is no memory but that of the object of key `[1]`, which is flushed to disk. -/
def Input.tight : Input where
  answer
    | .memEvicted => [⟨Setup.small.cachekey2id [1], 0⟩]
    | .flushAdmission => .flush
    | q => Input.calm.answer q
  granted := false
  picked := some ⟨0, 0⟩
  transfer := Input.calm.transfer

/-- A set, and another one that has to make room. -/
def evicting : List (Command Call Input) :=
  .call 0 (.set [1] [9, 8, 7] false) :: List.replicate 15 (.go 0 .calm) ++
    .call 1 (.set [2] [5] false) :: List.replicate 35 (.go 1 .tight) ++
    List.replicate 11 (.go 1 .calm)

theorem mem_evicting {c : Command Call Input} (hc : c ∈ evicting) :
    c = .call 0 (.set [1] [9, 8, 7] false) ∨ c = .call 1 (.set [2] [5] false) ∨
      (∃ t, c = .go t .calm) ∨ ∃ t, c = .go t .tight := by
  rcases List.mem_append.mp hc with hc | hc
  · rcases List.mem_append.mp hc with hc | hc
    · exact (List.mem_cons.mp hc).imp_right fun hc =>
        Or.inr (Or.inl ⟨0, List.eq_of_mem_replicate hc⟩)
    · exact Or.inr ((List.mem_cons.mp hc).imp_right fun hc =>
        Or.inr ⟨1, List.eq_of_mem_replicate hc⟩)
  · exact Or.inr (Or.inr (Or.inl ⟨1, List.eq_of_mem_replicate hc⟩))

theorem small_evicting (t : Nat) (c : Call) (hc : .call t c ∈ evicting) :
    c.Proper ∧ c.Small Setup.small.flags ⟨1, 1⟩ := by
  rcases mem_evicting hc with heq | heq | ⟨_, heq⟩ | ⟨_, heq⟩
  · cases heq
    exact ⟨show 3 ≤ 2147483648 by decide, show blockCountOf Flags.small 3 ≤ 1 by decide⟩
  · cases heq
    exact ⟨show 1 ≤ 2147483648 by decide, show blockCountOf Flags.small 1 ≤ 1 by decide⟩
  · cases heq
  · cases heq

/-- What is asked is answered by the input. -/
theorem modest_evicting (t : Nat) (input : Input) (hc : .go t input ∈ evicting) (e : Atom)
    (s : Shared) (a : e.Answer) (s' : Shared)
    (h : effect Setup.small.flags t e input s = some (a, s')) : Modest ⟨1, 1⟩ e a := by
  cases e with
  | ask q =>
      have ha : input.answer q = a := congrArg Prod.fst (Option.some.inj h)
      subst ha
      rcases mem_evicting hc with heq | heq | ⟨_, heq⟩ | ⟨_, heq⟩
      · cases heq
      · cases heq
      · cases heq
        cases q <;> first | trivial | exact Nat.zero_le 1
      · cases heq
        cases q <;> first | trivial | exact Nat.le_refl 1 | exact Nat.zero_le 1
  | _ => trivial

/-- The second set has evicted the object of the first to disk. -/
theorem calls_bounded_evicting : ∃ past p, Reaches .small (fun _ _ _ => 0) past p ∧
    (p.threads 1).bind Thread.result = some (.set [2] [5] false, .OK, []) ∧
    p.shared.allocated ⟨0, 0⟩ = true ∧
    (∀ t, (deeds t past).length ≤ callCost .small ⟨1, 1⟩) ∧
      past.length ≤ starts past * (callCost .small ⟨1, 1⟩ + 2) := by
  have hrun : (evicting.foldlM (exec (effect .small) (Call.thread .small))
      ⟨Shared.init fun _ _ _ => 0, fun _ => none⟩).any (fun p => decide (
        (p.threads 1).bind Thread.result = some (.set [2] [5] false, .OK, []) ∧
        p.shared.allocated ⟨0, 0⟩ = true)) = true := by
    decide +kernel
  obtain ⟨p, hexec, hp⟩ := (Option.any_eq_true _ _).mp hrun
  obtain ⟨hdone, hid⟩ := of_decide_eq_true hp
  obtain ⟨past, hchecked, hyields⟩ := Pool.Run.yields .init evicting hexec
  rw [List.append_nil] at hchecked
  have hcalls := Calls.of_yields hyields small_evicting
  have hmodest : Pool.Answers (Modest ⟨1, 1⟩) past := Pool.Answers.of_yields hyields modest_evicting
  have hchecked : CheckedRun .small (fun _ _ _ => 0) past p := hchecked
  obtain ⟨hreaches, hpast⟩ := CheckedRun.reaches hchecked fun x t c hx => (hcalls x t c hx).1
  exact ⟨past, p, hreaches, hdone, hid,
    (calls_bounded sized_small hreaches hpast (fun x t c hx => (hcalls x t c hx).2) hmodest).2⟩

end Sharing

end StarCache
