import StarCache.AuxFuncs
import StarCache.Foundation.Program
import Mathlib.Data.List.Nodup

/-!
# Disk space

A directory hands out block indexes from bitmaps of 1024 blocks; the router
chooses a directory by smooth weighted round-robin among those it believes not
to be full; `DiskSpaceManager` ties the two together. An out-of-range bitmap
access has no defined outcome.

The weights of the router are signed 64-bit integers. Its sums wrap around, and the router
records that one has overflowed, since the language leaves this undefined.
-/

namespace StarCache

open MachineInt

def blockCountInSpace : Nat := 1024

structure BlockSpace where
  startBlockIndex : Nat := 0
  freeBits : List Bool := []
  freeCount : Nat := 0

structure CacheDir where
  index : Nat
  quotaBytes : Nat
  totalBlockCount : Nat
  blockSpaces : List BlockSpace
  /-- Indexes of the spaces that are not full. -/
  freeSpaceList : List Nat
  /-- The quota of each block file. -/
  blockFiles : List Nat

namespace CacheDir

/-- A space of 1024 free blocks. -/
def fullSpace (i : Nat) : BlockSpace where
  startBlockIndex := i * blockCountInSpace
  freeBits := List.replicate blockCountInSpace true
  freeCount := blockCountInSpace

def initFreeSpaceList (totalBlockCount : Nat) : List BlockSpace × List Nat :=
  let spaceCount := totalBlockCount / blockCountInSpace
  let full := (List.range spaceCount).map fullSpace
  let curBlockCount := spaceCount * blockCountInSpace
  -- the last space, which is not full
  if curBlockCount < totalBlockCount then
    let remainBlocks := totalBlockCount - curBlockCount
    (full ++ [{ startBlockIndex := curBlockCount
                freeBits := List.replicate remainBlocks true
                freeCount := remainBlocks }],
      List.range spaceCount ++ [spaceCount])
  else (full ++ [⟨0, [], 0⟩], List.range spaceCount)

def initBlockFiles (flags : Flags) (quotaBytes : Nat) : List Nat :=
  let fileCount := quotaBytes / flags.blockFileSize
  let freeBytes := quotaBytes - fileCount * flags.blockFileSize
  List.replicate fileCount flags.blockFileSize ++ if 0 < freeBytes then [freeBytes] else []

def create (flags : Flags) (index quotaBytes : Nat) : CacheDir :=
  let totalBlockCount := u32 (quotaBytes / flags.blockSize : Nat)
  let spaces := initFreeSpaceList totalBlockCount
  { index
    quotaBytes
    totalBlockCount
    blockSpaces := spaces.1
    freeSpaceList := spaces.2
    blockFiles := initBlockFiles flags quotaBytes }

/-- `none` is the result `-1`. -/
def allocBlock : Prog CacheDir (Option Nat) := fun dir =>
  match dir.freeSpaceList with
  | [] => some (none, dir)
  | spaceIndex :: rest =>
      match dir.blockSpaces[spaceIndex]? with
      | none => none
      | some space =>
          match space.freeBits.findIdx? id with
          | none => none
          | some innerIndex =>
              let space' := { space with
                freeBits := space.freeBits.set innerIndex false
                freeCount := space.freeCount - 1 }
              some (some (space.startBlockIndex + innerIndex), { dir with
                blockSpaces := dir.blockSpaces.set spaceIndex space'
                freeSpaceList := if space'.freeCount = 0 then rest else spaceIndex :: rest })

def freeBlock (blockIndex : Nat) : Prog CacheDir Unit := fun dir =>
  let spaceIndex := blockIndex / blockCountInSpace
  match dir.blockSpaces[spaceIndex]? with
  | none => none
  | some space =>
      let innerIndex := blockIndex - space.startBlockIndex
      if innerIndex < space.freeBits.length then
        let space' := { space with
          freeBits := space.freeBits.set innerIndex true
          freeCount := space.freeCount + 1 }
        some ((), { dir with
          blockSpaces := dir.blockSpaces.set spaceIndex space'
          freeSpaceList := if space'.freeCount = 1 then dir.freeSpaceList ++ [spaceIndex]
            else dir.freeSpaceList })
      else none

def fileIndex (flags : Flags) (blockIndex : Nat) : Nat := blockIndex / fileBlockCount flags

def getBlockFileOffset (flags : Flags) (blockIndex offsetInBlock : Nat) : Nat :=
  blockIndex % fileBlockCount flags * flags.blockSize + offsetInBlock

end CacheDir

structure DirWeight where
  index : Nat
  weight : Int
  curWeight : Int
  enable : Bool
deriving DecidableEq

structure CacheDirRouter where
  dirWeights : List DirWeight := []
  /-- Some sum of weights has overflowed. -/
  overflowed : Bool := false
deriving DecidableEq

namespace CacheDirRouter

def addDir (router : CacheDirRouter) (dir : CacheDir) : CacheDirRouter :=
  let quotaBytes := i64 dir.quotaBytes
  { router with
    dirWeights := router.dirWeights ++ [⟨dir.index, quotaBytes, quotaBytes, true⟩] }

def disableDir (router : CacheDirRouter) (index : Nat) : CacheDirRouter :=
  { router with
    dirWeights := router.dirWeights.modify index fun dw => { dw with enable := false } }

def addDirWeight (router : CacheDirRouter) (index : Nat) (weight : Int) : CacheDirRouter where
  dirWeights := router.dirWeights.modify index fun dw =>
    { dw with curWeight := i64 (dw.curWeight + weight), enable := true }
  overflowed := router.overflowed ||
    router.dirWeights[index]?.any fun dw => !fitsI64 (dw.curWeight + weight)

/-- The first enabled directory of greatest current weight, searched from
position `idx` on; `best` is the choice among the earlier ones. -/
def pick : List DirWeight → Nat → Option (Nat × Int) → Option (Nat × Int)
  | [], _, best => best
  | dw :: rest, idx, best =>
      if dw.enable then
        match best with
        | none => pick rest (idx + 1) (some (idx, dw.curWeight))
        | some (i, w) =>
            pick rest (idx + 1) (if w < dw.curWeight then some (idx, dw.curWeight) else some (i, w))
      else pick rest (idx + 1) best

/-- nginx smooth weighted round-robin; `none` is the result `-1`. -/
def nextDirIndex (router : CacheDirRouter) : Option Nat × CacheDirRouter :=
  let enabled := router.dirWeights.filter (·.enable)
  let raised := router.dirWeights.map fun dw =>
    if dw.enable then { dw with curWeight := i64 (dw.curWeight + dw.weight) } else dw
  let total := i64 (enabled.map (·.weight)).sum
  -- the raised weights and the values that `total` runs through
  let sums := enabled.map (fun dw => dw.curWeight + dw.weight) ++
    (List.range (enabled.length + 1)).map fun k => ((enabled.take k).map (·.weight)).sum
  let overflowed := router.overflowed || !sums.all fitsI64
  match pick raised 0 none with
  | none => (none, ⟨raised, overflowed⟩)
  | some (index, curWeight) =>
      (some index, {
        dirWeights := raised.modify index fun dw =>
          { dw with curWeight := i64 (dw.curWeight - total) }
        overflowed := overflowed || !fitsI64 (curWeight - total) })

end CacheDirRouter

structure DiskSpaceManager where
  quotaBytes : Nat := 0
  usedBytes : Nat := 0
  cacheDirs : List CacheDir := []
  router : CacheDirRouter := {}

namespace DiskSpaceManager

variable (flags : Flags)

/-- The index of a directory is stored in 8 bits. -/
def addCacheDir (mgr : DiskSpaceManager) (dir : DirSpace) : DiskSpaceManager :=
  let cacheDir := CacheDir.create flags (mgr.cacheDirs.length % 256) dir.quotaBytes
  { mgr with
    cacheDirs := mgr.cacheDirs ++ [cacheDir]
    router := mgr.router.addDir cacheDir
    quotaBytes := u64 (mgr.quotaBytes + dir.quotaBytes) }

/-- The `while (true)` of `alloc_block`, for a bounded number of rounds. -/
def allocRounds : Nat → Prog DiskSpaceManager (Option BlockId)
  | 0, _ => none
  | rounds + 1, mgr =>
      let r := mgr.router.nextDirIndex
      let mgr := { mgr with router := r.2 }
      match r.1 with
      | none => some (none, mgr)
      | some dirIndex =>
          match mgr.cacheDirs[dirIndex]? with
          | none => none
          | some dir =>
              match dir.allocBlock with
              | none => none
              | some (some blockIndex, dir') =>
                  some (some ⟨dirIndex % 256, u32 blockIndex⟩, { mgr with
                    cacheDirs := mgr.cacheDirs.set dirIndex dir'
                    usedBytes := u64 (mgr.usedBytes + flags.blockSize) })
              | some (none, dir') =>
                  allocRounds rounds { mgr with
                    cacheDirs := mgr.cacheDirs.set dirIndex dir'
                    router := mgr.router.disableDir dirIndex }

/-- Each round that does not end the loop disables a directory. -/
def allocBlock : Prog DiskSpaceManager (Option BlockId) := fun mgr =>
  allocRounds flags (mgr.cacheDirs.length + 1) mgr

def freeBlock (blockId : BlockId) : Prog DiskSpaceManager Unit := fun mgr =>
  match mgr.cacheDirs[blockId.dirIndex]? with
  | none => none
  | some dir =>
      match dir.freeBlock blockId.blockIndex with
      | none => none
      | some ((), dir') => some ((), { mgr with
          cacheDirs := mgr.cacheDirs.set blockId.dirIndex dir'
          usedBytes := u64 (mgr.usedBytes - flags.blockSize)
          router := mgr.router.addDirWeight blockId.dirIndex (i64 flags.blockSize) })

end DiskSpaceManager

namespace CacheDir

/-- The free bit of a block, if the block exists. -/
def freeBit (dir : CacheDir) (blockIndex : Nat) : Option Bool :=
  dir.blockSpaces[blockIndex / blockCountInSpace]?.bind
    (·.freeBits[blockIndex % blockCountInSpace]?)

def Allocated (dir : CacheDir) (blockIndex : Nat) : Prop := dir.freeBit blockIndex = some false

/-- What no operation on the blocks of a directory changes. -/
def layout (dir : CacheDir) : List Nat × Nat := (dir.blockFiles, dir.totalBlockCount)

/-- What each space records about its blocks. -/
structure SpaceInv (total i : Nat) (space : BlockSpace) : Prop where
  length : space.freeBits.length = min blockCountInSpace (total - i * blockCountInSpace)
  start : space.freeBits ≠ [] → space.startBlockIndex = i * blockCountInSpace
  count : space.freeCount = space.freeBits.count true

/-- The bitmaps, their counts and the list of non-full spaces are in step. -/
structure Inv (dir : CacheDir) : Prop where
  total_lt : dir.totalBlockCount < 4294967296
  length : dir.blockSpaces.length = dir.totalBlockCount / blockCountInSpace + 1
  space : ∀ i space, dir.blockSpaces[i]? = some space → SpaceInv dir.totalBlockCount i space
  nodup : dir.freeSpaceList.Nodup
  mem_free : ∀ i, i ∈ dir.freeSpaceList ↔
    ∃ space, dir.blockSpaces[i]? = some space ∧ 0 < space.freeCount

theorem SpaceInv.set {total i j : Nat} {space : BlockSpace} (h : SpaceInv total i space)
    {b : Bool} (hj : space.freeBits[j]? = some (!b)) :
    SpaceInv total i { space with
      freeBits := space.freeBits.set j b
      freeCount := if b then space.freeCount + 1 else space.freeCount - 1 } := by
  obtain ⟨hlt, hget⟩ := List.getElem?_eq_some_iff.mp hj
  refine ⟨?_, ?_, ?_⟩
  · simpa using h.length
  · intro hne
    apply h.start
    rintro heq
    simp [heq] at hne
  · have hpos : b = false → 0 < space.freeBits.count true := by
      rintro rfl
      exact List.count_pos_iff.mpr (by rw [← (by simpa using hget : space.freeBits[j] = true)]; simp)
    dsimp only
    rw [List.count_set hlt, hget, h.count]
    cases b <;> simp

/-- Writing one bit of one space. -/
theorem freeBit_set (dir : CacheDir) {i j : Nat} {space : BlockSpace} {b : Bool}
    (hspace : dir.blockSpaces[i]? = some space) (hj : j < space.freeBits.length)
    (hlen : space.freeBits.length ≤ blockCountInSpace) (count : Nat) (free : List Nat)
    (blockIndex : Nat) :
    ({ dir with
        blockSpaces := dir.blockSpaces.set i
          { space with freeBits := space.freeBits.set j b, freeCount := count }
        freeSpaceList := free } : CacheDir).freeBit blockIndex =
      if blockIndex = i * blockCountInSpace + j then some b else dir.freeBit blockIndex := by
  have hpos : 0 < blockCountInSpace := by decide
  obtain ⟨hlt, _⟩ := List.getElem?_eq_some_iff.mp hspace
  unfold freeBit
  dsimp only
  rw [List.getElem?_set]
  by_cases hi : i = blockIndex / blockCountInSpace
  · subst hi
    rw [if_pos rfl, if_pos hlt, hspace]
    dsimp only [Option.bind_some]
    rw [List.getElem?_set]
    by_cases hjj : j = blockIndex % blockCountInSpace
    · subst hjj
      rw [if_pos rfl, if_pos hj, if_pos]
      rw [Nat.mul_comm]
      exact (Nat.div_add_mod _ _).symm
    · rw [if_neg hjj, if_neg]
      intro heq
      apply hjj
      rw [heq, Nat.mul_comm, Nat.mul_add_mod, Nat.mod_eq_of_lt (by omega)]
  · rw [if_neg hi, if_neg]
    rintro rfl
    apply hi
    rw [Nat.mul_comm, Nat.mul_add_div hpos, Nat.div_eq_of_lt (by omega), Nat.add_zero]

namespace Inv

variable {dir : CacheDir} (h : dir.Inv)

include h

theorem freeBit_lt {b : Nat} {bit : Bool} (hb : dir.freeBit b = some bit) :
    b < dir.totalBlockCount := by
  unfold freeBit at hb
  cases hspace : dir.blockSpaces[b / blockCountInSpace]? with
  | none => simp [hspace] at hb
  | some space =>
      rw [hspace, Option.bind_some] at hb
      obtain ⟨hlt, _⟩ := List.getElem?_eq_some_iff.mp hb
      rw [(h.space _ _ hspace).length] at hlt
      have := Nat.div_add_mod b blockCountInSpace
      rw [Nat.mul_comm] at this
      omega

/-- An allocation takes a free block and marks it. -/
theorem allocBlock {r : Option Nat} {dir' : CacheDir} (hr : dir.allocBlock = some (r, dir')) :
    dir'.Inv ∧ dir'.layout = dir.layout ∧
      (r = none → dir' = dir) ∧
      ∀ b, r = some b → b < dir.totalBlockCount ∧ dir.freeBit b = some true ∧
        ∀ x, dir'.freeBit x = if x = b then some false else dir.freeBit x := by
  unfold CacheDir.allocBlock at hr
  cases hfree : dir.freeSpaceList with
  | nil =>
      simp only [hfree, Option.some.injEq, Prod.mk.injEq] at hr
      obtain ⟨rfl, rfl⟩ := hr
      exact ⟨h, rfl, fun _ => rfl, by simp⟩
  | cons i rest =>
      simp only [hfree] at hr
      cases hspace : dir.blockSpaces[i]? with
      | none => simp [hspace] at hr
      | some space =>
          simp only [hspace] at hr
          cases hfind : space.freeBits.findIdx? id with
          | none => simp [hfind] at hr
          | some j =>
              simp only [hfind, Option.some.injEq, Prod.mk.injEq] at hr
              obtain ⟨rfl, rfl⟩ := hr
              obtain ⟨hj, htrue, _⟩ := List.findIdx?_eq_some_iff_getElem.mp hfind
              have hsp := h.space i space hspace
              have hget : space.freeBits[j]? = some true := by
                rw [List.getElem?_eq_getElem hj]
                simpa using htrue
              have hne : space.freeBits ≠ [] := List.ne_nil_of_length_pos (by omega)
              have hlen : space.freeBits.length ≤ blockCountInSpace := by
                rw [hsp.length]
                exact Nat.min_le_left _ _
              have hcount : 0 < space.freeCount := by
                rw [hsp.count, List.count_pos_iff, ← (by simpa using htrue :
                  space.freeBits[j] = true)]
                exact List.getElem_mem hj
              have hi := (List.getElem?_eq_some_iff.mp hspace).1
              have hnodup : (i :: rest).Nodup := hfree ▸ h.nodup
              have hbits := dir.freeBit_set (b := false) hspace hj hlen
              have hbit : dir.freeBit (i * blockCountInSpace + j) = some true := by
                unfold freeBit
                rw [Nat.mul_comm, Nat.mul_add_div (by decide), Nat.mul_add_mod,
                  Nat.div_eq_of_lt (by omega), Nat.mod_eq_of_lt (by omega), Nat.add_zero, hspace]
                exact hget
              refine ⟨⟨h.total_lt, by simpa using h.length, ?_, ?_, ?_⟩, rfl, by simp, ?_⟩
              · intro i' space' hspace'
                dsimp only at hspace'
                rw [List.getElem?_set] at hspace'
                by_cases heq : i = i'
                · subst heq
                  simp only [if_true, hi, Option.some.injEq] at hspace'
                  subst hspace'
                  simpa using hsp.set (b := false) hget
                · rw [if_neg heq] at hspace'
                  exact h.space i' space' hspace'
              · dsimp only
                split
                · exact (List.nodup_cons.mp hnodup).2
                · exact hnodup
              · intro i'
                have hold := h.mem_free i'
                rw [hfree] at hold
                dsimp only
                rw [List.getElem?_set]
                by_cases heq : i = i'
                · subst heq
                  have hnot := (List.nodup_cons.mp hnodup).1
                  simp only [if_true, hi, Option.some.injEq, exists_eq_left']
                  by_cases hlast : space.freeCount - 1 = 0
                  · simp [hlast, hnot]
                  · simp [hlast]
                    omega
                · rw [if_neg heq, ← hold]
                  split <;> simp [Ne.symm heq]
              · rintro _ ⟨⟩
                have hstart := hsp.start hne
                rw [← hstart] at hbit
                refine ⟨h.freeBit_lt hbit, hbit, fun x => ?_⟩
                have hx := hbits (space.freeCount - 1)
                  (if space.freeCount - 1 = 0 then rest else i :: rest) x
                rwa [← hstart] at hx

/-- Freeing an allocated block clears its mark. -/
theorem freeBlock {b : Nat} {dir' : CacheDir} (hb : dir.Allocated b)
    (hr : dir.freeBlock b = some ((), dir')) :
    dir'.Inv ∧ dir'.layout = dir.layout ∧
      ∀ x, dir'.freeBit x = if x = b then some true else dir.freeBit x := by
  unfold Allocated freeBit at hb
  unfold CacheDir.freeBlock at hr
  dsimp only at hr
  cases hspace : dir.blockSpaces[b / blockCountInSpace]? with
  | none => simp [hspace] at hr
  | some space =>
      rw [hspace, Option.bind_some] at hb
      have hj := (List.getElem?_eq_some_iff.mp hb).1
      have hsp := h.space _ space hspace
      have hstart := hsp.start (List.ne_nil_of_length_pos (by omega))
      have hlen : space.freeBits.length ≤ blockCountInSpace := by
        rw [hsp.length]
        exact Nat.min_le_left _ _
      have hdm := Nat.div_add_mod b blockCountInSpace
      have hinner : b - space.startBlockIndex = b % blockCountInSpace := by
        rw [hstart, Nat.mul_comm]
        omega
      simp only [hspace, hinner, hj, if_true, Option.some.injEq, Prod.mk.injEq, true_and] at hr
      subst hr
      have hi := (List.getElem?_eq_some_iff.mp hspace).1
      have hold := h.mem_free
      refine ⟨⟨h.total_lt, by simpa using h.length, ?_, ?_, ?_⟩, rfl, ?_⟩
      · intro i' space' hspace'
        dsimp only at hspace'
        rw [List.getElem?_set] at hspace'
        by_cases heq : b / blockCountInSpace = i'
        · subst heq
          simp only [if_true, hi, Option.some.injEq] at hspace'
          subst hspace'
          simpa using hsp.set (b := true) hb
        · rw [if_neg heq] at hspace'
          exact h.space i' space' hspace'
      · dsimp only
        split
        next hone =>
          refine h.nodup.append (List.nodup_singleton _) ?_
          simp only [List.disjoint_singleton]
          rw [hold]
          rintro ⟨space', hspace', hpos⟩
          rw [hspace] at hspace'
          cases hspace'
          omega
        next => exact h.nodup
      · intro i'
        dsimp only
        rw [List.getElem?_set]
        by_cases heq : b / blockCountInSpace = i'
        · subst heq
          simp only [if_true, hi, Option.some.injEq, exists_eq_left']
          split
          next => simp
          next hne =>
            rw [hold, hspace]
            simp
            omega
        · rw [if_neg heq, ← hold]
          split <;> simp [Ne.symm heq]
      · intro x
        have hbits := dir.freeBit_set (b := true) hspace hj hlen (space.freeCount + 1)
          (if space.freeCount + 1 = 1 then dir.freeSpaceList ++ [b / blockCountInSpace]
            else dir.freeSpaceList) x
        rw [Nat.mul_comm, hdm] at hbits
        exact hbits

theorem allocBlock_defined : dir.allocBlock ≠ none := by
  unfold CacheDir.allocBlock
  cases hfree : dir.freeSpaceList with
  | nil => simp
  | cons i rest =>
      obtain ⟨space, hspace, hpos⟩ := (h.mem_free i).mp (hfree ▸ List.mem_cons_self)
      rw [(h.space i space hspace).count, List.count_pos_iff] at hpos
      have hfind : (space.freeBits.findIdx? id).isSome := by
        rw [List.findIdx?_isSome]
        exact List.any_eq_true.mpr ⟨true, hpos, rfl⟩
      obtain ⟨j, hj⟩ := Option.isSome_iff_exists.mp hfind
      simp [hspace, hj]

theorem freeBlock_defined {b : Nat} (hb : dir.Allocated b) : dir.freeBlock b ≠ none := by
  unfold Allocated freeBit at hb
  unfold CacheDir.freeBlock
  dsimp only
  cases hspace : dir.blockSpaces[b / blockCountInSpace]? with
  | none => simp [hspace] at hb
  | some space =>
      rw [hspace, Option.bind_some] at hb
      have hj := (List.getElem?_eq_some_iff.mp hb).1
      have hstart := (h.space _ space hspace).start (List.ne_nil_of_length_pos (by omega))
      have hdm := Nat.div_add_mod b blockCountInSpace
      have hinner : b - space.startBlockIndex < space.freeBits.length := by
        rw [hstart, Nat.mul_comm]
        omega
      simp [hinner]

end Inv

/-- The initial spaces are full, but for the last one. -/
theorem initFreeSpaceList_getElem (total i : Nat) (space : BlockSpace) :
    (initFreeSpaceList total).1[i]? = some space →
      SpaceInv total i space ∧ (i < total / blockCountInSpace ∨
        (i = total / blockCountInSpace ∧ (0 < space.freeCount ↔
          total / blockCountInSpace * blockCountInSpace < total))) := by
  have hdm := Nat.div_add_mod total blockCountInSpace
  have hmod : total % blockCountInSpace < blockCountInSpace := Nat.mod_lt _ (by decide)
  unfold initFreeSpaceList
  dsimp only
  intro hget
  -- the spaces before the last one are full
  have hfull : ∀ space, ((List.range (total / blockCountInSpace)).map fullSpace)[i]? = some space →
      SpaceInv total i space ∧ i < total / blockCountInSpace := by
    intro space hspace
    rw [List.getElem?_map] at hspace
    obtain ⟨x, hx, rfl⟩ := Option.map_eq_some_iff.mp hspace
    obtain ⟨hlt, hx⟩ := List.getElem?_eq_some_iff.mp hx
    rw [List.getElem_range] at hx
    subst hx
    rw [List.length_range] at hlt
    have hle : (i + 1) * blockCountInSpace ≤ total / blockCountInSpace * blockCountInSpace :=
      Nat.mul_le_mul_right _ hlt
    rw [Nat.succ_mul] at hle
    have hmul := Nat.mul_comm (total / blockCountInSpace) blockCountInSpace
    refine ⟨⟨?_, fun _ => rfl, by simp [fullSpace]⟩, hlt⟩
    rw [fullSpace, List.length_replicate]
    omega
  have hlast : ∀ last : BlockSpace,
      ((List.range (total / blockCountInSpace)).map fullSpace ++ [last])[i]? = some space →
        (SpaceInv total i space ∧ i < total / blockCountInSpace) ∨
          (i = total / blockCountInSpace ∧ last = space) := by
    intro last hspace
    rw [List.getElem?_append] at hspace
    split at hspace
    next => exact Or.inl (hfull space hspace)
    next hge =>
      rw [List.length_map, List.length_range] at hge hspace
      obtain ⟨hlt, hspace⟩ := List.getElem?_eq_some_iff.mp hspace
      have hi : i = total / blockCountInSpace := by
        rw [List.length_singleton] at hlt
        omega
      subst hi
      simp only [Nat.sub_self, List.getElem_cons_zero] at hspace
      exact Or.inr ⟨rfl, hspace⟩
  have hmul := Nat.mul_comm (total / blockCountInSpace) blockCountInSpace
  split at hget
  next hrest =>
    rcases hlast _ hget with ⟨hinv, hlt⟩ | ⟨rfl, rfl⟩
    · exact ⟨hinv, Or.inl hlt⟩
    · refine ⟨⟨?_, fun _ => rfl, by simp⟩, Or.inr ⟨rfl, by simp [hrest]⟩⟩
      rw [List.length_replicate]
      omega
  next hrest =>
    rcases hlast _ hget with ⟨hinv, hlt⟩ | ⟨rfl, rfl⟩
    · exact ⟨hinv, Or.inl hlt⟩
    · refine ⟨⟨?_, by simp, by simp⟩, Or.inr ⟨rfl, by simp [hrest]⟩⟩
      simp only [List.length_nil]
      omega

theorem inv_create (flags : Flags) (index quotaBytes : Nat) : (create flags index quotaBytes).Inv ∧
    ∀ b, ¬ (create flags index quotaBytes).Allocated b := by
  have htotal : u32 (quotaBytes / flags.blockSize : Nat) < 4294967296 := by
    rw [u32_natCast]
    exact Nat.mod_lt _ (by decide)
  generalize htot : u32 (quotaBytes / flags.blockSize : Nat) = total at htotal
  have hspaces := initFreeSpaceList_getElem total
  have hlength : (initFreeSpaceList total).1.length = total / blockCountInSpace + 1 := by
    unfold initFreeSpaceList
    dsimp only
    split <;> simp
  have htrue : ∀ (i : Nat) (space : BlockSpace), (initFreeSpaceList total).1[i]? = some space →
      ∀ bit ∈ space.freeBits, bit = true := by
    intro i space hspace
    unfold initFreeSpaceList at hspace
    dsimp only at hspace
    have hmem : ∀ space : BlockSpace, space ∈ (List.range (total / blockCountInSpace)).map fullSpace →
        ∀ bit ∈ space.freeBits, bit = true := by
      intro space hspace
      obtain ⟨x, _, rfl⟩ := List.mem_map.mp hspace
      exact fun bit hbit => List.eq_of_mem_replicate hbit
    split at hspace
    all_goals
      rcases List.mem_append.mp (List.mem_of_getElem? hspace) with hspace | hspace
      · exact hmem space hspace
      · rw [List.mem_singleton] at hspace
        subst hspace
        intro bit hbit
        simp at hbit
        try exact hbit.2
  unfold create
  dsimp only
  rw [htot]
  refine ⟨⟨htotal, hlength, fun i space hspace => (hspaces i space hspace).1, ?_, ?_⟩, ?_⟩
  · unfold initFreeSpaceList
    dsimp only
    split
    · exact (List.nodup_range).append (List.nodup_singleton _) (by simp)
    · exact List.nodup_range
  · intro i
    have hmem : i ∈ (initFreeSpaceList total).2 ↔ i < total / blockCountInSpace ∨
        (i = total / blockCountInSpace ∧ total / blockCountInSpace * blockCountInSpace < total) := by
      unfold initFreeSpaceList
      dsimp only
      split
      next hrest => simp [hrest]
      next hrest => simp [hrest]
    dsimp only
    rw [hmem]
    constructor
    · intro hi
      have hlt : i < (initFreeSpaceList total).1.length := by omega
      refine ⟨_, List.getElem?_eq_getElem hlt, ?_⟩
      obtain ⟨hinv, hcase⟩ := hspaces i _ (List.getElem?_eq_getElem hlt)
      rcases hi with hi | ⟨hi, hrest⟩
      · rw [hinv.count, List.count_pos_iff]
        have hlen := hinv.length
        have hdm := Nat.div_add_mod total blockCountInSpace
        have hle : (i + 1) * blockCountInSpace ≤ total / blockCountInSpace * blockCountInSpace :=
          Nat.mul_le_mul_right _ hi
        rw [Nat.succ_mul] at hle
        have hmul := Nat.mul_comm (total / blockCountInSpace) blockCountInSpace
        have hone : 0 < blockCountInSpace := by decide
        have hpos : 0 < ((initFreeSpaceList total).1[i]).freeBits.length := by omega
        have hfirst := List.getElem_mem hpos
        rwa [htrue i _ (List.getElem?_eq_getElem hlt) _ hfirst] at hfirst
      · rcases hcase with hlt' | ⟨_, hpos⟩
        · omega
        · exact hpos.mpr hrest
    · rintro ⟨space, hspace, hpos⟩
      rcases (hspaces i space hspace).2 with hi | ⟨hi, hiff⟩
      · exact Or.inl hi
      · exact Or.inr ⟨hi, hiff.mp hpos⟩
  · intro b hb
    unfold Allocated freeBit at hb
    dsimp only at hb
    obtain ⟨space, hspace, hbit⟩ := Option.bind_eq_some_iff.mp hb
    have := htrue _ space hspace false (List.mem_of_getElem? hbit)
    cases this

end CacheDir

namespace CacheDirRouter

@[simp] theorem nextDirIndex_length (router : CacheDirRouter) :
    router.nextDirIndex.2.dirWeights.length = router.dirWeights.length := by
  unfold nextDirIndex
  dsimp only
  split <;> simp

@[simp] theorem disableDir_length (router : CacheDirRouter) (i : Nat) :
    (router.disableDir i).dirWeights.length = router.dirWeights.length := by
  simp [disableDir]

/-- The directories the router believes not to be full. -/
def enabled (router : CacheDirRouter) : List Bool := router.dirWeights.map (·.enable)

/-- The choice is the one before, or an enabled directory with its weight. -/
theorem pick_chosen {weights : List DirWeight} {idx : Nat} {best : Option (Nat × Int)} {i : Nat}
    {w : Int} (h : pick weights idx best = some (i, w)) :
    best = some (i, w) ∨ ∃ dw, weights[i - idx]? = some dw ∧ dw.enable = true ∧
      dw.curWeight = w ∧ idx ≤ i := by
  -- a choice among the rest has its position counted from the next one
  have hlater : ∀ {dw : DirWeight} {rest : List DirWeight} {idx : Nat},
      (∃ dw', rest[i - (idx + 1)]? = some dw' ∧ dw'.enable = true ∧ dw'.curWeight = w ∧
        idx + 1 ≤ i) →
      ∃ dw', (dw :: rest)[i - idx]? = some dw' ∧ dw'.enable = true ∧ dw'.curWeight = w ∧
        idx ≤ i := by
    intro dw rest idx hrest
    obtain ⟨dw', hget, henable, hweight, hle⟩ := hrest
    refine ⟨dw', ?_, henable, hweight, by omega⟩
    rw [show i - idx = (i - (idx + 1)) + 1 by omega, List.getElem?_cons_succ]
    exact hget
  fun_induction pick weights idx best with
  | case1 => exact Or.inl h
  | case2 dw rest idx henable ih =>
      rcases ih h with hself | hrest
      · cases hself
        exact Or.inr ⟨dw, by simp, henable, rfl, Nat.le_refl _⟩
      · exact Or.inr (hlater hrest)
  | case3 dw rest idx henable j v ih =>
      rcases ih h with hself | hrest
      · split at hself
        · cases hself
          exact Or.inr ⟨dw, by simp, henable, rfl, Nat.le_refl _⟩
        · exact Or.inl hself
      · exact Or.inr (hlater hrest)
  | case4 dw rest idx best hdisabled ih =>
      rcases ih h with hbest | hrest
      · exact Or.inl hbest
      · exact Or.inr (hlater hrest)

/-- The router chooses an enabled directory and enables or disables none. -/
theorem nextDirIndex_enabled (router : CacheDirRouter) :
    router.nextDirIndex.2.enabled = router.enabled ∧
      ∀ i, router.nextDirIndex.1 = some i → router.enabled[i]? = some true := by
  unfold nextDirIndex enabled
  dsimp only
  generalize hraised : router.dirWeights.map (fun dw =>
    if dw.enable then { dw with curWeight := i64 (dw.curWeight + dw.weight) } else dw) = raised
  have hen : raised.map (·.enable) = router.dirWeights.map (·.enable) := by
    rw [← hraised, List.map_map]
    apply List.map_congr_left
    intro dw _
    simp only [Function.comp_apply]
    split <;> rfl
  split
  next hpick => exact ⟨hen, by simp⟩
  next j w hpick =>
    refine ⟨?_, ?_⟩
    · dsimp only
      rw [← hen]
      apply List.ext_getElem?
      intro k
      rw [List.getElem?_map, List.getElem?_map, List.getElem?_modify]
      cases raised[k]? with
      | none => rfl
      | some dw =>
          by_cases hjk : j = k
          · simp [hjk]
          · simp [hjk]
    · rintro i hi
      cases hi
      rcases pick_chosen hpick with hnone | ⟨dw, hget, htrue, _⟩
      · cases hnone
      · rw [← hen, List.getElem?_map]
        rw [Nat.sub_zero] at hget
        simp [hget, htrue]

theorem modify_enabled (weights : List DirWeight) (i : Nat) {f : DirWeight → DirWeight} {b : Bool}
    (hf : ∀ dw, (f dw).enable = b) :
    (weights.modify i f).map (·.enable) = (weights.map (·.enable)).set i b := by
  apply List.ext_getElem?
  intro k
  rw [List.getElem?_map, List.getElem?_modify, List.getElem?_set, List.length_map,
    List.getElem?_map]
  by_cases hik : i = k
  · subst hik
    simp only [if_true]
    split
    next hlt => simp [hlt, hf]
    next hlt => simp [Nat.not_lt.mp hlt]
  · simp [hik]

theorem disableDir_enabled (router : CacheDirRouter) (i : Nat) :
    (router.disableDir i).enabled = router.enabled.set i false := by
  exact modify_enabled router.dirWeights i fun _ => rfl

end CacheDirRouter

namespace DiskSpaceManager

variable {flags : Flags}

def Allocated (mgr : DiskSpaceManager) (id : BlockId) : Prop :=
  ∃ dir, mgr.cacheDirs[id.dirIndex]? = some dir ∧ dir.Allocated id.blockIndex

/-- The allocated blocks are exactly `ids`, each once, and the used bytes count
them (as a `size_t`). -/
structure Inv (flags : Flags) (mgr : DiskSpaceManager) (ids : List BlockId) : Prop where
  dirs_le : mgr.cacheDirs.length ≤ 256
  dir : ∀ dir ∈ mgr.cacheDirs, dir.Inv
  nodup : ids.Nodup
  allocated : ∀ id, mgr.Allocated id ↔ id ∈ ids
  used : mgr.usedBytes = flags.blockSize * ids.length % 18446744073709551616
  router : mgr.router.dirWeights.length = mgr.cacheDirs.length

/-- What no operation on blocks changes. -/
structure SameLayout (mgr mgr' : DiskSpaceManager) : Prop where
  quota : mgr'.quotaBytes = mgr.quotaBytes
  dirs : mgr'.cacheDirs.map CacheDir.layout = mgr.cacheDirs.map CacheDir.layout

theorem SameLayout.refl (mgr : DiskSpaceManager) : SameLayout mgr mgr := ⟨rfl, rfl⟩

theorem SameLayout.trans {a b c : DiskSpaceManager} (hab : SameLayout a b)
    (hbc : SameLayout b c) : SameLayout a c :=
  ⟨hbc.quota.trans hab.quota, hbc.dirs.trans hab.dirs⟩

/-- Replacing one directory by another with the same layout. -/
theorem map_layout_set {dirs : List CacheDir} {i : Nat} {dir dir' : CacheDir}
    (hdir : dirs[i]? = some dir) (hlayout : dir'.layout = dir.layout) :
    (dirs.set i dir').map CacheDir.layout = dirs.map CacheDir.layout := by
  apply List.ext_getElem?
  intro j
  rw [List.getElem?_map, List.getElem?_map, List.getElem?_set]
  split
  next heq =>
    subst heq
    obtain ⟨hlt, hget⟩ := List.getElem?_eq_some_iff.mp hdir
    simp [hlt, hget, hlayout]
  next => rfl

/-- The router matters only by its length. -/
theorem Inv.withRouter {mgr : DiskSpaceManager} {ids : List BlockId} (h : mgr.Inv flags ids)
    {router : CacheDirRouter} (hlen : router.dirWeights.length = mgr.router.dirWeights.length) :
    DiskSpaceManager.Inv flags { mgr with router } ids :=
  ⟨h.dirs_le, h.dir, h.nodup, h.allocated, h.used, hlen.trans h.router⟩

theorem Inv.set_dir {mgr : DiskSpaceManager} {ids : List BlockId} (h : mgr.Inv flags ids) (i : Nat)
    {dir' : CacheDir} (hdir' : dir'.Inv) : ∀ d ∈ mgr.cacheDirs.set i dir', d.Inv := by
  intro d hd
  rcases List.mem_or_eq_of_mem_set hd with hd | rfl
  · exact h.dir d hd
  · exact hdir'

/-- A block taken from one directory. -/
theorem Inv.allocDir {mgr : DiskSpaceManager} {ids : List BlockId} (h : mgr.Inv flags ids)
    {i b : Nat} {dir dir' : CacheDir} (hdir : mgr.cacheDirs[i]? = some dir)
    (halloc : dir.allocBlock = some (some b, dir')) :
    (⟨i % 256, u32 b⟩ : BlockId) ∉ ids ∧
      DiskSpaceManager.Inv flags { mgr with
        cacheDirs := mgr.cacheDirs.set i dir'
        usedBytes := u64 (mgr.usedBytes + flags.blockSize) } (⟨i % 256, u32 b⟩ :: ids) := by
  obtain ⟨hi, hget⟩ := List.getElem?_eq_some_iff.mp hdir
  have hmem : dir ∈ mgr.cacheDirs := hget ▸ List.getElem_mem hi
  have hle := h.dirs_le
  obtain ⟨hinv, _, _, hsome⟩ := (h.dir dir hmem).allocBlock halloc
  obtain ⟨hb, htrue, hbits⟩ := hsome b rfl
  have hu : u32 (b : Nat) = b := u32_of_lt (Nat.lt_trans hb (h.dir dir hmem).total_lt)
  have hmod : i % 256 = i := Nat.mod_eq_of_lt (by omega)
  have hfresh : (⟨i, b⟩ : BlockId) ∉ ids := by
    rw [← h.allocated]
    rintro ⟨d, hd, hfalse⟩
    rw [hdir] at hd
    cases hd
    unfold CacheDir.Allocated at hfalse
    rw [htrue] at hfalse
    cases hfalse
  rw [hu, hmod]
  refine ⟨hfresh, by simpa using h.dirs_le, h.set_dir i hinv, List.nodup_cons.mpr ⟨hfresh, h.nodup⟩,
    fun id => ?_, ?_, by simpa using h.router⟩
  · rw [List.mem_cons, ← h.allocated]
    unfold Allocated
    dsimp only
    rw [List.getElem?_set]
    by_cases heq : i = id.dirIndex
    · subst heq
      simp only [if_true, hi, Option.some.injEq, exists_eq_left', hdir]
      unfold CacheDir.Allocated
      rw [hbits]
      by_cases hbb : id.blockIndex = b
      · subst hbb
        simp
      · rw [if_neg hbb]
        refine ⟨Or.inr, ?_⟩
        rintro (hid | hid)
        · rw [hid] at hbb
          exact absurd rfl hbb
        · exact hid
    · rw [if_neg heq]
      refine ⟨Or.inr, ?_⟩
      rintro (hid | hid)
      · rw [hid] at heq
        exact absurd rfl heq
      · exact hid
  · dsimp only
    rw [h.used, List.length_cons, Nat.mul_succ]
    unfold u64
    omega

theorem allocRounds_spec {ids : List BlockId} : ∀ (rounds : Nat) (mgr : DiskSpaceManager),
    mgr.Inv flags ids → ∀ r mgr', allocRounds flags rounds mgr = some (r, mgr') →
      SameLayout mgr mgr' ∧ (r = none → mgr'.Inv flags ids) ∧
        ∀ id, r = some id → id ∉ ids ∧ mgr'.Inv flags (id :: ids)
  | 0, mgr, _, r, mgr', hr => by simp [DiskSpaceManager.allocRounds] at hr
  | rounds + 1, mgr, h, r, mgr', hr => by
      unfold DiskSpaceManager.allocRounds at hr
      dsimp only at hr
      cases hnext : mgr.router.nextDirIndex.1 with
      | none =>
          simp only [hnext, Option.some.injEq, Prod.mk.injEq] at hr
          obtain ⟨rfl, rfl⟩ := hr
          exact ⟨⟨rfl, rfl⟩, fun _ => h.withRouter (by simp), by simp⟩
      | some i =>
          simp only [hnext] at hr
          cases hdir : mgr.cacheDirs[i]? with
          | none => simp [hdir] at hr
          | some dir =>
              simp only [hdir] at hr
              obtain ⟨hi, hget⟩ := List.getElem?_eq_some_iff.mp hdir
              have hmem : dir ∈ mgr.cacheDirs := hget ▸ List.getElem_mem hi
              cases halloc : dir.allocBlock with
              | none => simp [halloc] at hr
              | some result =>
                  obtain ⟨r', dir'⟩ := result
                  obtain ⟨_, hfiles, hnone, _⟩ := (h.dir dir hmem).allocBlock halloc
                  have hlayout := map_layout_set hdir hfiles
                  cases r' with
                  | none =>
                      simp only [halloc] at hr
                      have hsame := hnone rfl
                      subst hsame
                      have hset : mgr.cacheDirs.set i dir' = mgr.cacheDirs := by
                        rw [← hget, List.set_getElem_self]
                      have hinv' : DiskSpaceManager.Inv flags { mgr with
                          cacheDirs := mgr.cacheDirs.set i dir'
                          router := mgr.router.nextDirIndex.2.disableDir i } ids := by
                        rw [hset]
                        exact h.withRouter (by simp)
                      obtain ⟨hl, hn, hs⟩ := allocRounds_spec rounds _ hinv' r mgr' hr
                      exact ⟨⟨hl.quota, hl.dirs.trans hlayout⟩, hn, hs⟩
                  | some b =>
                      simp only [halloc, Option.some.injEq, Prod.mk.injEq] at hr
                      obtain ⟨rfl, rfl⟩ := hr
                      obtain ⟨hfresh, hinv'⟩ := h.allocDir hdir halloc
                      refine ⟨⟨rfl, hlayout⟩, by simp, ?_⟩
                      rintro id ⟨⟩
                      exact ⟨hfresh, hinv'.withRouter (by simp)⟩

/-- An allocation returns a block that was not allocated, or changes nothing. -/
theorem Inv.allocBlock {mgr mgr' : DiskSpaceManager} {ids : List BlockId} {r : Option BlockId}
    (h : mgr.Inv flags ids) (hr : allocBlock flags mgr = some (r, mgr')) :
    SameLayout mgr mgr' ∧ (r = none → mgr'.Inv flags ids) ∧
      ∀ id, r = some id → id ∉ ids ∧ mgr'.Inv flags (id :: ids) :=
  allocRounds_spec _ mgr h r mgr' hr

/-- A block given back to its directory. -/
theorem Inv.freeDir {mgr : DiskSpaceManager} {ids : List BlockId} {id : BlockId}
    (h : mgr.Inv flags (id :: ids)) {dir dir' : CacheDir}
    (hdir : mgr.cacheDirs[id.dirIndex]? = some dir)
    (hfree : dir.freeBlock id.blockIndex = some ((), dir')) :
    dir'.layout = dir.layout ∧
      DiskSpaceManager.Inv flags { mgr with
        cacheDirs := mgr.cacheDirs.set id.dirIndex dir'
        usedBytes := u64 (mgr.usedBytes - flags.blockSize) } ids := by
  have hb : dir.Allocated id.blockIndex := by
    obtain ⟨d, hd, hb⟩ := (h.allocated id).mpr List.mem_cons_self
    rw [hdir] at hd
    cases hd
    exact hb
  obtain ⟨hnot, hnodup⟩ := List.nodup_cons.mp h.nodup
  obtain ⟨hi, hget⟩ := List.getElem?_eq_some_iff.mp hdir
  have hmem : dir ∈ mgr.cacheDirs := hget ▸ List.getElem_mem hi
  obtain ⟨hinv, hfiles, hbits⟩ := (h.dir dir hmem).freeBlock hb hfree
  refine ⟨hfiles, by simpa using h.dirs_le, h.set_dir _ hinv, hnodup, fun x => ?_, ?_,
    by simpa using h.router⟩
  · have hx := h.allocated x
    rw [List.mem_cons] at hx
    unfold Allocated at hx ⊢
    dsimp only
    rw [List.getElem?_set]
    by_cases heq : id.dirIndex = x.dirIndex
    · rw [← heq, hdir] at hx
      simp only [heq, if_true, exists_eq_left', Option.some.injEq] at hx ⊢
      rw [if_pos (heq ▸ hi)]
      simp only [Option.some.injEq, exists_eq_left']
      unfold CacheDir.Allocated at hx ⊢
      rw [hbits]
      by_cases hbb : x.blockIndex = id.blockIndex
      · have hxid : x = id := by
          cases x
          cases id
          simp_all
        simp [hxid, hnot]
      · have hxid : x ≠ id := by
          rintro rfl
          exact hbb rfl
        rw [if_neg hbb, hx]
        simp [hxid]
    · have hxid : x ≠ id := by
        rintro rfl
        exact heq rfl
      rw [if_neg heq, hx]
      simp [hxid]
  · have hused := h.used
    dsimp only
    rw [hused, List.length_cons, Nat.mul_succ]
    unfold u64
    omega

theorem Inv.freeBlock {mgr mgr' : DiskSpaceManager} {ids : List BlockId} {id : BlockId}
    (h : mgr.Inv flags (id :: ids)) (hr : freeBlock flags id mgr = some ((), mgr')) :
    SameLayout mgr mgr' ∧ mgr'.Inv flags ids := by
  unfold DiskSpaceManager.freeBlock at hr
  cases hdir : mgr.cacheDirs[id.dirIndex]? with
  | none => simp [hdir] at hr
  | some dir =>
      simp only [hdir] at hr
      cases hfree : dir.freeBlock id.blockIndex with
      | none => simp [hfree] at hr
      | some result =>
          obtain ⟨⟨⟩, dir'⟩ := result
          simp only [hfree, Option.some.injEq, Prod.mk.injEq, true_and] at hr
          subst hr
          obtain ⟨hfiles, hinv⟩ := h.freeDir hdir hfree
          exact ⟨⟨rfl, map_layout_set hdir hfiles⟩,
            hinv.withRouter (by simp [CacheDirRouter.addDirWeight])⟩

/-- A round that does not end the loop disables a directory, so that the loop ends. -/
theorem allocRounds_defined (ids : List BlockId) : ∀ (rounds : Nat) (mgr : DiskSpaceManager),
    mgr.Inv flags ids → mgr.router.enabled.count true < rounds →
      allocRounds flags rounds mgr ≠ none
  | 0, _, _, hlt => absurd hlt (Nat.not_lt_zero _)
  | rounds + 1, mgr, h, hlt => by
      obtain ⟨hsame, henabled⟩ := mgr.router.nextDirIndex_enabled
      unfold DiskSpaceManager.allocRounds
      dsimp only
      cases hnext : mgr.router.nextDirIndex.1 with
      | none => simp
      | some i =>
          have htrue := henabled i hnext
          obtain ⟨hi, hget⟩ := List.getElem?_eq_some_iff.mp htrue
          have hlen : i < mgr.cacheDirs.length := by
            rw [← h.router]
            simpa [CacheDirRouter.enabled] using hi
          have hdir := List.getElem?_eq_getElem hlen
          have hinv := h.dir _ (List.getElem_mem hlen)
          simp only [hdir]
          cases halloc : (mgr.cacheDirs[i]).allocBlock with
          | none => exact absurd halloc hinv.allocBlock_defined
          | some result =>
              obtain ⟨r, dir'⟩ := result
              cases r with
              | some b => simp
              | none =>
                  have hdir' := (hinv.allocBlock halloc).2.2.1 rfl
                  subst hdir'
                  have hset : mgr.cacheDirs.set i mgr.cacheDirs[i] = mgr.cacheDirs :=
                    List.set_getElem_self _
                  refine allocRounds_defined ids rounds _ ?_ ?_
                  · rw [hset]
                    exact h.withRouter (by simp)
                  · dsimp only
                    rw [CacheDirRouter.disableDir_enabled, hsame, List.count_set hi, hget]
                    have hpos : 0 < mgr.router.enabled.count true :=
                      List.count_pos_iff.mpr (List.mem_of_getElem? htrue)
                    simp
                    omega

theorem Inv.allocBlock_defined {mgr : DiskSpaceManager} {ids : List BlockId}
    (h : mgr.Inv flags ids) : DiskSpaceManager.allocBlock flags mgr ≠ none := by
  refine allocRounds_defined _ _ mgr h (Nat.lt_succ_of_le (Nat.le_trans List.count_le_length ?_))
  rw [← h.router]
  simp [CacheDirRouter.enabled]

theorem Inv.freeBlock_defined {mgr : DiskSpaceManager} {ids : List BlockId} {id : BlockId}
    (h : mgr.Inv flags ids) (hid : id ∈ ids) : DiskSpaceManager.freeBlock flags id mgr ≠ none := by
  obtain ⟨dir, hdir, hb⟩ := (h.allocated id).mpr hid
  have hmem : dir ∈ mgr.cacheDirs := List.mem_of_getElem? hdir
  unfold DiskSpaceManager.freeBlock
  simp only [hdir]
  cases hfree : dir.freeBlock id.blockIndex with
  | none => exact absurd hfree ((h.dir dir hmem).freeBlock_defined hb)
  | some result => simp

theorem Inv.perm {mgr : DiskSpaceManager} {ids ids' : List BlockId} (h : mgr.Inv flags ids)
    (hperm : ids.Perm ids') : mgr.Inv flags ids' := by
  refine ⟨h.dirs_le, h.dir, hperm.nodup_iff.mp h.nodup, fun id => ?_, ?_, h.router⟩
  · rw [h.allocated, hperm.mem_iff]
  · rw [h.used, hperm.length_eq]

theorem inv_empty : ({} : DiskSpaceManager).Inv flags [] := by
  refine ⟨by decide, by simp, List.nodup_nil, ?_, rfl, rfl⟩
  intro id
  simp [Allocated]

theorem Inv.addCacheDir {mgr : DiskSpaceManager} (h : mgr.Inv flags []) (dir : DirSpace)
    (hlt : mgr.cacheDirs.length < 256) : (mgr.addCacheDir flags dir).Inv flags [] := by
  unfold DiskSpaceManager.addCacheDir
  dsimp only
  obtain ⟨hinv, hnone⟩ := CacheDir.inv_create flags (mgr.cacheDirs.length % 256) dir.quotaBytes
  refine ⟨by simpa [Nat.lt_succ_iff] using hlt, ?_, List.nodup_nil, ?_, h.used,
    by simpa [CacheDirRouter.addDir] using h.router⟩
  · intro d hd
    rcases List.mem_append.mp hd with hd | hd
    · exact h.dir d hd
    · rw [List.mem_singleton.mp hd]
      exact hinv
  · intro id
    simp only [List.not_mem_nil, iff_false]
    rintro ⟨d, hd, hb⟩
    dsimp only at hd
    rw [List.getElem?_append] at hd
    split at hd
    next => exact absurd ((h.allocated id).mp ⟨d, hd, hb⟩) (by simp)
    next =>
      rw [List.mem_singleton.mp (List.mem_of_getElem? hd)] at hb
      exact hnone _ hb

end DiskSpaceManager
end StarCache
