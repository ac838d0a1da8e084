import StarCache.Space.DiskAllocation
import Mathlib.Data.Finset.Card
import Mathlib.Data.Finset.Range

/-!
# Block files

A directory counts its blocks by dividing its quota, and its files by cutting the quota into
files. The two counts agree when the block size divides the file size; otherwise the blocks
that no file has room for are handed out all the same.
-/

namespace StarCache

open MachineInt

namespace CacheDir

section Files

variable {flags : Flags} {quotaBytes i : Nat}

/-- The file of the block is open, and the whole block lies within its quota. -/
def InFile (flags : Flags) (quotaBytes i : Nat) : Prop :=
  ∃ quota, (initBlockFiles flags quotaBytes)[fileIndex flags i]? = some quota ∧
    getBlockFileOffset flags i flags.blockSize ≤ quota

/-- The blocks that the files of a directory have room for. -/
def room (flags : Flags) (quotaBytes : Nat) : Nat :=
  quotaBytes / flags.blockFileSize * fileBlockCount flags +
    quotaBytes % flags.blockFileSize / flags.blockSize

theorem fileBlockCount_eq (hcount : flags.blockFileSize / flags.blockSize < 4294967296) :
    fileBlockCount flags = flags.blockFileSize / flags.blockSize := u32_of_lt hcount

/-- All files but the last one are of full size. -/
theorem initBlockFiles_getElem? (flags : Flags) (quotaBytes k : Nat) :
    (initBlockFiles flags quotaBytes)[k]? =
      if k < quotaBytes / flags.blockFileSize then some flags.blockFileSize
      else if k = quotaBytes / flags.blockFileSize ∧ 0 < quotaBytes % flags.blockFileSize then
        some (quotaBytes % flags.blockFileSize)
      else none := by
  have hrest : quotaBytes - quotaBytes / flags.blockFileSize * flags.blockFileSize =
      quotaBytes % flags.blockFileSize := by
    rw [Nat.mod_def, Nat.mul_comm]
  unfold initBlockFiles
  dsimp only
  rw [hrest, List.getElem?_append, List.length_replicate, List.getElem?_replicate]
  split
  next => rfl
  next hge =>
    rw [Nat.not_lt] at hge
    by_cases hpos : 0 < quotaBytes % flags.blockFileSize
    · rw [if_pos hpos, List.getElem?_singleton]
      by_cases hk : k = quotaBytes / flags.blockFileSize
      · simp [hk, hpos]
      · have hne : k - quotaBytes / flags.blockFileSize ≠ 0 := by omega
        simp [hk, hne]
    · simp [hpos]

/-- Blocks are numbered file by file. -/
theorem inFile_iff (hle : flags.blockSize ≤ flags.blockFileSize)
    (hcount : flags.blockFileSize / flags.blockSize < 4294967296) :
    InFile flags quotaBytes i ↔ i < room flags quotaBytes := by
  have hblock := flags.blockSize_pos
  have hfile : 0 < flags.blockFileSize := Nat.lt_of_lt_of_le hblock hle
  have hc := fileBlockCount_eq hcount
  have hpos : 0 < fileBlockCount flags := by
    rw [hc]
    exact Nat.div_pos hle hblock
  have hfit : fileBlockCount flags * flags.blockSize ≤ flags.blockFileSize := by
    rw [hc]
    exact Nat.div_mul_le_self _ _
  have hlast : quotaBytes % flags.blockFileSize / flags.blockSize ≤ fileBlockCount flags := by
    rw [hc]
    exact Nat.div_le_div_right (Nat.mod_lt _ hfile).le
  have hmod := Nat.mod_lt i hpos
  have hsplit := Nat.div_add_mod' i (fileBlockCount flags)
  have hend : getBlockFileOffset flags i flags.blockSize =
      (i % fileBlockCount flags + 1) * flags.blockSize := by
    unfold getBlockFileOffset
    rw [Nat.add_mul, Nat.one_mul]
  unfold InFile
  rw [initBlockFiles_getElem?, hend]
  unfold fileIndex room
  rcases Nat.lt_trichotomy (i / fileBlockCount flags) (quotaBytes / flags.blockFileSize) with
    hlt | heq | hgt
  · rw [if_pos hlt]
    have hroom : (i % fileBlockCount flags + 1) * flags.blockSize ≤ flags.blockFileSize :=
      (Nat.mul_le_mul_right _ hmod).trans hfit
    have hbefore := Nat.mul_le_mul_right (fileBlockCount flags) (Nat.succ_le_of_lt hlt)
    rw [Nat.succ_mul] at hbefore
    simp only [Option.some.injEq, exists_eq_left']
    have hlow : i < quotaBytes / flags.blockFileSize * fileBlockCount flags := by omega
    exact iff_of_true hroom (hlow.trans_le (Nat.le_add_right _ _))
  · -- the last file
    rw [if_neg (by omega)]
    have hin : (i % fileBlockCount flags + 1) * flags.blockSize ≤
        quotaBytes % flags.blockFileSize ↔
          i % fileBlockCount flags < quotaBytes % flags.blockFileSize / flags.blockSize := by
      rw [← Nat.le_div_iff_mul_le hblock]
      exact Nat.succ_le_iff
    rw [← heq]
    by_cases hrest : 0 < quotaBytes % flags.blockFileSize
    · rw [if_pos ⟨rfl, hrest⟩]
      simp only [Option.some.injEq, exists_eq_left']
      rw [hin]
      omega
    · rw [if_neg fun h => hrest h.2]
      have hnone : quotaBytes % flags.blockFileSize / flags.blockSize = 0 := by
        rw [Nat.eq_zero_of_not_pos hrest, Nat.zero_div]
      simp only [reduceCtorEq, false_and, exists_false, false_iff]
      omega
  · rw [if_neg (by omega), if_neg fun h => absurd h.1 (by omega)]
    have hafter := Nat.mul_le_mul_right (fileBlockCount flags) (Nat.succ_le_of_lt hgt)
    rw [Nat.succ_mul] at hafter
    simp only [reduceCtorEq, false_and, exists_false, false_iff]
    omega

/-- When blocks fill their files, there is room for all that the quota pays for. -/
theorem room_eq (hdvd : flags.blockSize ∣ flags.blockFileSize)
    (hcount : flags.blockFileSize / flags.blockSize < 4294967296) :
    room flags quotaBytes = quotaBytes / flags.blockSize := by
  have hblock := flags.blockSize_pos
  obtain ⟨m, hm⟩ := hdvd
  have hfile : fileBlockCount flags = m := by
    rw [fileBlockCount_eq hcount, hm, Nat.mul_div_cancel_left m hblock]
  unfold room
  rw [hfile]
  conv_rhs => rw [← Nat.div_add_mod quotaBytes flags.blockFileSize]
  rw [show flags.blockFileSize * (quotaBytes / flags.blockFileSize) =
    flags.blockSize * (quotaBytes / flags.blockFileSize * m) by rw [hm]; ac_rfl]
  rw [Nat.mul_add_div hblock]

end Files

/-! ## The blocks that are handed out -/

/-- A directory after calls in any order. -/
inductive Reachable (flags : Flags) (index quotaBytes : Nat) : CacheDir → Prop
  | create : Reachable flags index quotaBytes (create flags index quotaBytes)
  | alloc {dir dir' : CacheDir} {r : Option Nat} : Reachable flags index quotaBytes dir →
      dir.allocBlock = some (r, dir') → Reachable flags index quotaBytes dir'
  | free {dir dir' : CacheDir} {b : Nat} : Reachable flags index quotaBytes dir →
      dir.Allocated b → dir.freeBlock b = some ((), dir') → Reachable flags index quotaBytes dir'

/-- Every block of a directory has its bit. -/
theorem Inv.freeBit_of_lt {dir : CacheDir} (h : dir.Inv) {b : Nat}
    (hb : b < dir.totalBlockCount) : ∃ bit, dir.freeBit b = some bit := by
  have hdiv := Nat.div_add_mod' b blockCountInSpace
  have hmod : b % blockCountInSpace < blockCountInSpace := Nat.mod_lt _ (by decide)
  have hspace : b / blockCountInSpace < dir.blockSpaces.length := by
    rw [h.length]
    exact Nat.lt_succ_of_le (Nat.div_le_div_right hb.le)
  have hget := List.getElem?_eq_getElem hspace
  have hlen := (h.space _ _ hget).length
  have hin : b % blockCountInSpace <
      (dir.blockSpaces[b / blockCountInSpace]).freeBits.length := by
    rw [hlen]
    omega
  unfold freeBit
  rw [hget, Option.bind_some]
  exact ⟨_, List.getElem?_eq_getElem hin⟩

section Reach

variable {flags : Flags} {index quotaBytes : Nat} {dir : CacheDir}

theorem Reachable.inv (h : Reachable flags index quotaBytes dir) : dir.Inv ∧
    dir.layout = (CacheDir.create flags index quotaBytes).layout := by
  induction h with
  | create => exact ⟨(inv_create flags index quotaBytes).1, rfl⟩
  | alloc _ hr ih =>
      obtain ⟨hinv, hlayout, _⟩ := ih.1.allocBlock hr
      exact ⟨hinv, hlayout.trans ih.2⟩
  | free _ hb hr ih =>
      obtain ⟨hinv, hlayout, _⟩ := ih.1.freeBlock hb hr
      exact ⟨hinv, hlayout.trans ih.2⟩

theorem Reachable.total (h : Reachable flags index quotaBytes dir) :
    dir.totalBlockCount = u32 (quotaBytes / flags.blockSize : Nat) := congrArg Prod.snd h.inv.2

/-- The blocks that may still be handed out. -/
def freeBlocks (dir : CacheDir) : Finset Nat :=
  (Finset.range dir.totalBlockCount).filter fun b => dir.freeBit b = some true

/-- Allocation gets to every free block. -/
theorem Reachable.alloc_free {i : Nat} (n : Nat) : ∀ {dir : CacheDir},
    Reachable flags index quotaBytes dir → dir.freeBit i = some true → dir.freeBlocks.card ≤ n →
      ∃ dir' dir'', Reachable flags index quotaBytes dir' ∧
        dir'.allocBlock = some (some i, dir'') := by
  induction n with
  | zero =>
      intro dir h hfree hcard
      have hmem : i ∈ dir.freeBlocks := by simp [freeBlocks, hfree, h.inv.1.freeBit_lt hfree]
      rw [Finset.card_eq_zero.mp (Nat.le_zero.mp hcard)] at hmem
      simp at hmem
  | succ n ih =>
      intro dir h hfree hcard
      cases hr : dir.allocBlock with
      | none => exact absurd hr h.inv.1.allocBlock_defined
      | some result =>
          obtain ⟨r, dir'⟩ := result
          cases r with
          | none => exact absurd ⟨i, hfree⟩ (h.inv.1.allocBlock_none hr)
          | some b =>
              obtain ⟨_, hlayout, _, hb⟩ := h.inv.1.allocBlock hr
              obtain ⟨hlt, hbfree, hbits⟩ := hb b rfl
              by_cases hib : i = b
              · subst hib
                exact ⟨dir, dir', h, hr⟩
              · apply ih (h.alloc hr)
                · rw [hbits, if_neg hib]
                  exact hfree
                · -- one block fewer is free
                  have hsub : dir'.freeBlocks ⊆ dir.freeBlocks.erase b := by
                    intro x hx
                    simp only [freeBlocks, Finset.mem_filter, Finset.mem_range, hbits] at hx
                    have hne : x ≠ b := by
                      intro heq
                      simp [heq] at hx
                    have htotal : dir'.totalBlockCount = dir.totalBlockCount :=
                      congrArg Prod.snd hlayout
                    rw [if_neg hne, htotal] at hx
                    simp [freeBlocks, hne, hx.1, hx.2]
                  have hcard' := Finset.card_le_card hsub
                  have hmem : b ∈ dir.freeBlocks := by simp [freeBlocks, hbfree, hlt]
                  rw [Finset.card_erase_of_mem hmem] at hcard'
                  omega

/-- A block is handed out at some time if and only if the count of blocks includes it. -/
theorem handed_out_iff {i : Nat} : (∃ dir dir', Reachable flags index quotaBytes dir ∧
    dir.allocBlock = some (some i, dir')) ↔ i < u32 (quotaBytes / flags.blockSize : Nat) := by
  constructor
  · intro h
    obtain ⟨dir, dir', h, hr⟩ := h
    rw [← h.total]
    exact ((h.inv.1.allocBlock hr).2.2.2 i rfl).1
  · intro hlt
    have hcreate : Reachable flags index quotaBytes (CacheDir.create flags index quotaBytes) :=
      .create
    obtain ⟨bit, hbit⟩ := hcreate.inv.1.freeBit_of_lt (hcreate.total ▸ hlt)
    cases bit with
    | true => exact hcreate.alloc_free _ hbit le_rfl
    | false => exact absurd hbit ((inv_create flags index quotaBytes).2 i)

end Reach

end CacheDir

end StarCache
