import StarCache.Content.Layout
import StarCache.Content.Transfer
import StarCache.Impl.Public

/-!
# Short transfers

A system call that moves fewer bytes than it was asked for is no failure, and neither
`BlockFile::write` nor `BlockFile::read` looks at the count it answers. What is read back is
what was written exactly as far as both transfers reach.
-/

namespace StarCache

open Prog MachineInt

namespace BlockFile

variable (pf : Platform)

/-- The bytes that a write of `size` bytes is answered to have moved, the padding included; `none`
when it fails. Its first question is asked at `clock`. -/
def writeMoves (clock size : Nat) : Option Nat :=
  if pf.flags.enableOsPageCache ||
      (pf.env.isAligned clock && size % pf.flags.ioAlignUnitSize == 0 && size != 0) then
    (pf.env.pwrite (clock + 1) size).toOption
  else if pf.env.posixMemalign (clock + 1) && roundUp size pf.flags.ioAlignUnitSize != 0 then
    (pf.env.pwrite (clock + 2) (roundUp size pf.flags.ioAlignUnitSize)).toOption
  else none

/-- The bytes that a read of `size` bytes is answered to have moved; `none` when it fails. A count
that is negative as an `int` is reported with `errno`, and without one it is no failure. -/
def readMoves (clock size : Nat) : Option Nat :=
  if !pf.flags.enableOsPageCache && !pf.env.posixMemalign clock then none
  else
    match pf.env.pread clock (alignedSize pf.flags size) with
    | .error _ => none
    | .ok count =>
        if i32 count < 0 then if pf.env.errno clock = 0 then some 0 else none else some count

variable {pf}

theorem transferOut_moves (pos : FilePos) (data : IOBuf) (s : State) :
    Spec True (transferOut pf pos data) (fun st t =>
      (st.ok = true ↔ (pf.env.pwrite s.clock data.length).toOption.isSome) ∧
        ∀ k, (pf.env.pwrite s.clock data.length).toOption = some k →
          t.files = writeBytes s.files pos (data.take k)) s := by
  unfold transferOut tick
  simp only [spec_bind, spec_modifyGet]
  cases hanswer : pf.env.pwrite s.clock data.length with
  | error e =>
      rw [spec_pure, ioError_not_ok]
      simp [Except.toOption]
  | ok count =>
      simp only [spec_bind, spec_modify, spec_pure]
      simp [Except.toOption]

theorem write_moves (pos : FilePos) (buf : IOBuf) (s : State) :
    Spec True (write pf pos buf) (fun st t =>
      (st.ok = true ↔ (writeMoves pf s.clock buf.length).isSome) ∧
        ∀ k, writeMoves pf s.clock buf.length = some k →
          ∃ pad, t.files = writeBytes s.files pos ((buf ++ pad).take k)) s := by
  unfold write writeMoves
  simp only [spec_bind]
  unfold tick
  simp only [spec_modifyGet]
  have hempty : (!buf.isEmpty) = (buf.length != 0) := by
    cases buf with
    | nil => rfl
    | cons byte rest => rfl
  rw [hempty]
  apply spec_ite
  · intro hdirect
    rw [if_pos hdirect]
    apply (transferOut_moves pos buf _).mono
    intro st t ht
    refine ⟨ht.1, fun k hk => ⟨[], ?_⟩⟩
    rw [List.append_nil]
    exact ht.2 k hk
  · intro hrealign
    rw [if_neg hrealign]
    unfold alignIobuf tick
    simp only [spec_bind, spec_modifyGet]
    apply spec_ite
    · intro hmemory
      rw [if_pos hmemory, spec_pure]
      have hlen := roundUp_ge buf.length _ pf.flags.ioAlignUnitSize_pos
      generalize hpad : (List.range (roundUp buf.length pf.flags.ioAlignUnitSize - buf.length)).map
        (fun i => pf.env.freshBytes (s.clock + 1) (buf.length + i)) = pad
      have hpadded : (buf ++ pad).length = roundUp buf.length pf.flags.ioAlignUnitSize := by
        rw [← hpad, List.length_append, List.length_map, List.length_range]
        omega
      rw [← hpadded]
      apply (transferOut_moves pos (buf ++ pad) _).mono
      intro st t ht
      exact ⟨ht.1, fun k hk => ⟨pad, ht.2 k hk⟩⟩
    · intro hnone
      rw [if_neg hnone, spec_pure]
      simp [ioError, Status.ok, ENOMEM]

/-- Behind the bytes that were moved a read answers whatever its new memory held, or nothing. -/
theorem read_moves (pos : FilePos) (size : Nat) (s : State) :
    Spec True (BlockFile.read pf pos size) (fun r _ =>
      (r.1.ok = true ↔ (readMoves pf s.clock size).isSome) ∧
        ∀ m, readMoves pf s.clock size = some m → ∀ i < size,
          (i < m → r.2[i]? = (readBytes s.files pos size)[i]?) ∧
            (m ≤ i → r.2[i]? = none ∨ r.2[i]? = some (pf.env.freshBytes s.clock i))) s := by
  unfold BlockFile.read readMoves tick
  simp only [spec_bind, spec_modifyGet]
  apply spec_ite
  · intro hmemory
    rw [if_pos hmemory, spec_pure]
    simp [ioError, Status.ok, ENOMEM]
  · intro hmemory
    rw [if_neg hmemory]
    cases hanswer : pf.env.pread s.clock (alignedSize pf.flags size) with
    | error e =>
        rw [spec_pure, ioError_not_ok]
        simp
    | ok count =>
        dsimp only
        apply spec_ite
        · intro hnegative
          rw [if_pos hnegative, spec_pure]
          by_cases herrno : pf.env.errno s.clock = 0
          · rw [if_pos herrno, herrno]
            simp [ioError, Status.ok]
          · rw [if_neg herrno]
            simp [ioError, Status.ok, herrno]
        · intro hcount
          rw [if_neg hcount]
          simp only [spec_bind, spec_read, spec_pure]
          refine ⟨by simp, ?_⟩
          intro m hm i hi
          cases hm
          have hsize : size ≤ alignedSize pf.flags size := by
            unfold alignedSize
            split
            next => exact Nat.le_refl _
            next => exact roundUp_ge _ _ pf.flags.ioAlignUnitSize_pos
          constructor
          · intro hmoved
            have hin : i < min count (alignedSize pf.flags size) := by omega
            rw [List.getElem?_append_left (by rwa [length_readBytes])]
            unfold readBytes
            rw [List.getElem?_map, List.getElem?_map, List.getElem?_range hin,
              List.getElem?_range hi]
          · intro hstale
            right
            rw [List.getElem?_append_right (by rw [length_readBytes]; omega), length_readBytes,
              List.getElem?_map, List.getElem?_range (by omega), Option.map_some]
            congr 2
            omega

end BlockFile

namespace DiskCache

variable {pf : Platform} (hsum : pf.flags.enableDiskChecksum = false) {id : BlockId} {s : State}

include hsum

theorem writeBlock_moves {seg : BlockSegment} (hlocated : Located pf.flags s.diskSpace id)
    (haligned : seg.offset % pf.flags.sliceSize = 0) :
    Spec True (writeBlock pf id seg) (fun st t =>
      (st.ok = true ↔ (BlockFile.writeMoves pf s.clock seg.buf.length).isSome) ∧
        ∀ k, BlockFile.writeMoves pf s.clock seg.buf.length = some k → ∀ i < seg.buf.length,
          diskByte pf.flags t.files id (seg.offset + i) =
            if i < k then seg.buf.getD i 0 else diskByte pf.flags s.files id (seg.offset + i)) s := by
  unfold writeBlock
  simp only [spec_bind, spec_read]
  rw [if_neg hlocated.1, if_neg (not_not.mpr haligned), hsum]
  simp only [spec_bind]
  apply spec_when
  · intro h
    cases h
  · intro _
    apply (locate_spec id seg.offset fun _ => hlocated).mono
    intro pos u hu
    obtain ⟨rfl, rfl⟩ := hu
    apply (BlockFile.write_moves _ seg.buf u).mono
    intro st t ht
    refine ⟨ht.1, fun k hk i hi => ?_⟩
    obtain ⟨pad, hfiles⟩ := ht.2 k hk
    rw [hfiles, diskByte_writeBytes, if_pos (Nat.le_add_right _ _), Nat.add_sub_cancel_left]
    by_cases hmoved : i < k
    · rw [if_pos hmoved, List.getD_eq_getElem?_getD, List.getElem?_take_of_lt hmoved,
        List.getElem?_append_left hi, List.getD_eq_getElem?_getD, List.getElem?_eq_getElem hi]
      rfl
    · rw [if_neg hmoved]
      apply List.getD_eq_default
      rw [List.length_take]
      omega

theorem readBlock_moves {cacheId : CacheId} {offset size : Nat}
    (hlocated : Located pf.flags s.diskSpace id) (haligned : offset % pf.flags.sliceSize = 0) :
    Spec True (readBlock pf cacheId id offset size) (fun r _ =>
      (r.1.ok = true ↔ (BlockFile.readMoves pf (s.clock + 1) size).isSome) ∧
        ∀ m, BlockFile.readMoves pf (s.clock + 1) size = some m → ∀ i < size,
          (i < m → r.2[i]? = some (diskByte pf.flags s.files id (offset + i))) ∧
            (m ≤ i → r.2[i]? = none ∨ r.2[i]? = some (pf.env.freshBytes (s.clock + 1) i))) s := by
  unfold readBlock
  simp only [spec_bind, spec_read]
  rw [if_neg hlocated.1]
  have htouch : Spec True (evictTouch pf cacheId false) (fun _ u => u.clock = s.clock + 1 ∧
      u.files = s.files ∧ u.diskSpace = s.diskSpace) s := by
    unfold evictTouch tick
    simp only [spec_bind, spec_modifyGet]
    apply spec_ite
    · intro _
      rw [spec_modifyGet]
      exact ⟨rfl, rfl, rfl⟩
    · intro _
      rw [spec_pure]
      exact ⟨rfl, rfl, rfl⟩
  simp only [spec_bind]
  apply htouch.mono
  intro handle u hu
  obtain ⟨hclock, hfiles, hspace⟩ := hu
  unfold evictRelease
  rw [spec_modify, if_neg (not_not.mpr haligned), hsum]
  simp only [spec_bind]
  apply (locate_spec id offset fun _ => by rw [hspace]; exact hlocated).mono
  intro pos v hv
  obtain ⟨rfl, rfl⟩ := hv
  apply (BlockFile.read_moves _ size _).mono
  intro r t hr
  dsimp only at hr
  rw [hclock, hfiles, readBytes_filePos] at hr
  have hbytes : ∀ m, BlockFile.readMoves pf (s.clock + 1) size = some m → ∀ i < size,
      (i < m → r.2[i]? = some (diskByte pf.flags s.files id (offset + i))) ∧
        (m ≤ i → r.2[i]? = none ∨ r.2[i]? = some (pf.env.freshBytes (s.clock + 1) i)) := by
    intro m hm i hi
    refine ⟨fun hmoved => ?_, (hr.2 m hm i hi).2⟩
    rw [(hr.2 m hm i hi).1 hmoved, List.getElem?_map, List.getElem?_range hi]
    rfl
  cases hok : r.1.ok with
  | false =>
      simp only [Bool.not_false, if_true, spec_pure]
      rw [hok] at hr ⊢
      exact ⟨hr.1, hbytes⟩
  | true =>
      simp only [Bool.not_true, Bool.false_eq_true, if_false, spec_pure]
      rw [hok] at hr
      exact ⟨hr.1, hbytes⟩

end DiskCache

section RoundTrip

variable (pf : Platform) (cacheId : CacheId) (id : BlockId) (offset : Nat)

/-- When the data is written in `s`, and read back in a state that is like `later` and has the
bytes of the range as the write left them, both with the status OK, the bytes read are the data. -/
def RoundTrips (s later : State) (data : IOBuf) : Prop :=
  ∀ st t, DiskCache.writeBlock pf id ⟨offset, data.length, data⟩ s = some (st, t) → st.ok = true →
    ∀ files, (∀ i < data.length, diskByte pf.flags files id (offset + i) =
        diskByte pf.flags t.files id (offset + i)) →
      ∀ r u, DiskCache.readBlock pf cacheId id offset data.length { later with files } =
          some (r, u) → r.1.ok = true →
        r.2.take data.length = data

variable {pf cacheId id offset}

/-- A block keeps what is written to it, whatever that is, if and only if the transfers that are
taken for successful move at least the data; the padding need not be moved. -/
theorem roundTrips_iff (hsum : pf.flags.enableDiskChecksum = false) {s later : State}
    (hwritten : Located pf.flags s.diskSpace id) (hread : Located pf.flags later.diskSpace id)
    (haligned : offset % pf.flags.sliceSize = 0) (size : Nat) :
    (∀ data : IOBuf, data.length = size → RoundTrips pf cacheId id offset s later data) ↔
      ∀ k m, BlockFile.writeMoves pf s.clock size = some k →
        BlockFile.readMoves pf (later.clock + 1) size = some m → size ≤ k ∧ size ≤ m := by
  constructor
  · intro h k m hk hm
    by_contra hshort
    -- the first byte that is not moved both ways, and what is found in its place
    obtain ⟨i, stale, hi, hstale⟩ : ∃ i stale, i < size ∧
        (m ≤ i ∧ stale = pf.env.freshBytes (later.clock + 1) i ∨
          i < m ∧ k ≤ i ∧ stale = diskByte pf.flags s.files id (offset + i)) := by
      by_cases hm' : m < size
      · exact ⟨m, _, hm', Or.inl ⟨Nat.le_refl _, rfl⟩⟩
      · exact ⟨k, _, by omega, Or.inr ⟨by omega, Nat.le_refl _, rfl⟩⟩
    obtain ⟨byte, hbyte⟩ : ∃ byte : UInt8, byte ≠ stale := ⟨stale + 1, by simp⟩
    have hlen : (List.replicate size byte).length = size := List.length_replicate
    obtain ⟨st, t, hwrite, hok, hmoved⟩ := (@DiskCache.writeBlock_moves pf hsum id s
      ⟨offset, _, List.replicate size byte⟩ hwritten haligned).defined trivial
    obtain ⟨r, u, hrun, hreads⟩ := (@DiskCache.readBlock_moves pf hsum id
      { later with files := t.files } cacheId offset size hread haligned).defined trivial
    rw [hlen] at hok hmoved
    have hback := h _ hlen st t hwrite (hok.mpr (by rw [hk]; rfl)) t.files (fun _ _ => rfl) r u
      (by rw [hlen]; exact hrun) (hreads.1.mpr (by rw [hm]; rfl))
    have hget : r.2[i]? = some byte := by
      rw [hlen] at hback
      rw [← List.getElem?_take_of_lt hi, hback, List.getElem?_replicate, if_pos hi]
    obtain ⟨hboth, hrest⟩ := hreads.2 m hm i hi
    rcases hstale with ⟨hle, rfl⟩ | ⟨hlt, hle, rfl⟩
    · rcases hrest hle with hnone | hfresh
      · rw [hnone] at hget
        cases hget
      · rw [hfresh] at hget
        exact hbyte (Option.some.inj hget).symm
    · rw [hboth hlt, hmoved k hk i hi, if_neg (by omega)] at hget
      exact hbyte (Option.some.inj hget).symm
  · intro hcover data hsize st t hwrite hok files hfiles r u hrun hback
    subst hsize
    obtain ⟨hwok, hmoved⟩ :=
      (DiskCache.writeBlock_moves hsum hwritten haligned).outcome hwrite
    obtain ⟨hrok, hreads⟩ :=
      (@DiskCache.readBlock_moves pf hsum id { later with files } cacheId offset data.length
        hread haligned).outcome hrun
    obtain ⟨k, hk⟩ := Option.isSome_iff_exists.mp (hwok.mp hok)
    obtain ⟨m, hm⟩ := Option.isSome_iff_exists.mp (hrok.mp hback)
    obtain ⟨hk', hm'⟩ := hcover k m hk hm
    apply List.ext_getElem?
    intro i
    by_cases hi : i < data.length
    · rw [List.getElem?_take_of_lt hi, (hreads m hm i hi).1 (by omega), hfiles i hi,
        hmoved k hk i hi, if_pos (by omega), List.getD_eq_getElem?_getD,
        List.getElem?_eq_getElem hi]
      rfl
    · have htaken : (r.2.take data.length).length ≤ i := by
        rw [List.length_take]
        omega
      rw [List.getElem?_eq_none htaken, List.getElem?_eq_none (Nat.le_of_not_lt hi)]

/-- Without checksums. -/
def Flags.unchecked : Flags := { Flags.small with enableDiskChecksum := false }

theorem roundTrips_reliable :
    RoundTrips (.simple .unchecked .reliable) 7 ⟨0, 1⟩ 2
      (StarCacheImpl.init (.simple .unchecked .reliable) (.oneDir 9 8))
      (StarCacheImpl.init (.simple .unchecked .reliable) (.oneDir 9 8)) [1, 2] := by
  have hlocated : Located .unchecked (StarCacheImpl.init (.simple .unchecked .reliable)
      (.oneDir 9 8)).diskSpace ⟨0, 1⟩ :=
    ⟨by decide +kernel, by decide +kernel, _, rfl, 8, by decide +kernel⟩
  apply (@roundTrips_iff (.simple .unchecked .reliable) 7 ⟨0, 1⟩ 2 rfl _ _ hlocated hlocated
    (by decide) 2).mpr _ _ rfl
  intro k m hk hm
  have hwrite : BlockFile.writeMoves (.simple .unchecked .reliable) 0 2 = some 2 := by
    decide +kernel
  have hread : BlockFile.readMoves (.simple .unchecked .reliable) 1 2 = some 2 := by
    decide +kernel
  cases hwrite.symm.trans hk
  cases hread.symm.trans hm
  decide

/-- A block is written and read, and what is read. -/
def writtenAndRead (env : Env) (data : IOBuf) : Option (Bool × Bool × IOBuf) :=
  let pf := Platform.simple .unchecked env
  let m : Prog State (Bool × Bool × IOBuf) := do
    let id ← deref (← DiskCache.newBlockItem pf)
    let st ← DiskCache.writeBlock pf id ⟨0, data.length, data⟩
    let r ← DiskCache.readBlock pf 7 id 0 data.length
    pure (st.ok, r.1.ok, r.2)
  (m (StarCacheImpl.init pf (.oneDir 9 8))).map (·.1)

/-- The second byte is not written, or nothing is read, and both calls return OK. -/
theorem written_not_read :
    writtenAndRead { Env.reliable with pwrite := fun _ _ => .ok 1 } [1, 2] =
        some (true, true, [1, 0]) ∧
      writtenAndRead { Env.reliable with pread := fun _ _ => .ok 0 } [1, 2] =
        some (true, true, [0, 0]) := by
  decide +kernel

end RoundTrip

end StarCache
