import StarCache.Refinement.Runs

/-!
# Integrity of the data

Whatever is promoted, flushed and evicted, a read that succeeds returns bytes of the
value that was set last; and a block is only on disk as a whole.
-/

namespace StarCache

open Prog MachineInt StarCacheImpl

section Integrity

variable {rt : Runtime} {options : CacheOptions} {history : List Record} {s : State}

/-- The state of a run in which the objects are small. -/
theorem Run.bytes (hdata : DataHyp rt.toPlatform) (hrun : Run rt options history s)
    (hsmall : ∀ record ∈ history, record.call.Bounded 2147483648) :
    ∃ val, Sound { Scenario.bytes hdata with val } .all history s := by
  have hstored : ∀ record ∈ history, record.call.Stored rt.flags := fun record hrecord =>
    Call.stored hdata.toGeometry (hsmall record hrecord)
  exact (hrun.runOf _ hstored).sound_bytes hdata fun _ _ _ h => h

/-- The object that a call finds is the one that was set last. -/
theorem Sound.lookup {sc : Scenario rt.toPlatform} {g : Ghost} (h : Sound sc g history s)
    {cacheKey : CacheKey} {r : ItemRef} (hlookup : lookupItem rt s cacheKey = some r) :
    latestValue cacheKey history = some (sc.val r) := by
  obtain ⟨hfind, rfl, _⟩ := lookupItem_iff.mp hlookup
  exact h.latest _ r hfind

/-- A get or a read that succeeds returns the bytes of the value that was set last, whatever has
been read before. -/
theorem read_latest (hdata : DataHyp rt.toPlatform) (hrun : Run rt options history s)
    (hsmall : ∀ record ∈ history, record.call.Bounded 2147483648) :
    (∀ cacheKey readOptions reply t,
      (Call.get cacheKey readOptions).run rt s = some (reply, t) → reply.status.ok = true →
        latestValue cacheKey history = some reply.buf) ∧
    ∀ cacheKey (offset : Int) (size : Nat) readOptions reply t, 0 ≤ offset →
      offset + size < 18446744073709551616 →
        (Call.read cacheKey offset size readOptions).run rt s = some (reply, t) →
          reply.status.ok = true → ∃ value, latestValue cacheKey history = some value ∧
            reply.buf = (value.drop offset.toNat).take size := by
  obtain ⟨val, hsound⟩ := hrun.bytes hdata hsmall
  constructor
  · intro cacheKey readOptions reply t hcall hok
    obtain ⟨_, _, hout⟩ := hsound.ran (c := .get cacheKey readOptions) (fun _ => trivial)
      (fun _ => Or.inl trivial) hcall
    obtain ⟨r, hlookup, hbuf⟩ := hout trivial hok
    rw [hsound.lookup hlookup, hbuf]
    rfl
  · intro cacheKey offset size readOptions reply t hpos hlt hcall hok
    obtain ⟨_, _, hout⟩ := hsound.ran (c := .read cacheKey offset size readOptions)
      (fun _ => trivial) (fun _ => Or.inl ⟨hpos, hlt⟩) hcall
    obtain ⟨r, hlookup, hbuf⟩ := hout trivial hok
    exact ⟨val r, hsound.lookup hlookup, hbuf ⟨hpos, hlt⟩⟩

/-- An object is read as it was set, after a read whose end wraps around. -/
theorem read_latest_small : ∃ history s reply t,
    Run (.simple .small .reliable) (.oneDir 8 16) history s ∧
      ¬ (∀ record ∈ history, record.call.InRange) ∧
      (Call.get [1] none).run (.simple .small .reliable) s = some (reply, t) ∧
        reply.buf = [1, 2, 3, 4, 5] := by
  obtain ⟨history, s, hrun, hp⟩ := Run.of_calls (.simple .small .reliable)
    (.oneDir 8 16) [.set [1] [1, 2, 3, 4, 5] none, .set [2] [6, 7, 8, 9] none,
      .read [1] 1 18446744073709551615 none]
    (fun history s => decide (latestValue [1] history = some [1, 2, 3, 4, 5] ∧
      (∀ record ∈ history, record.call.Bounded 2147483648) ∧
      ¬ (∀ record ∈ history, record.call.InRange) ∧
      ((Call.get [1] none).run (.simple .small .reliable) s).any (·.1.status.ok) = true))
    (by decide +kernel)
  obtain ⟨hlatest, hsmall, hwraps, hget⟩ := of_decide_eq_true hp
  obtain ⟨x, hx, hok⟩ := Option.any_eq_true _ _ |>.mp hget
  have hbuf := (read_latest (dataHyp_reliable geometry_small (.inl rfl)) hrun hsmall).1
    [1] none x.1 x.2 hx hok
  exact ⟨history, s, x.1, x.2, hrun, hwraps, hx, Option.some.inj (hbuf.symm.trans hlatest)⟩

/-! ## Whole blocks on disk -/

/-- Block `i` of an object, with `size` bytes, is on disk as a whole, and the checksum of
each of its slices is the one of the bytes of the slice. -/
structure WholeOnDisk (pf : Platform) (s : State) (value : IOBuf) (i size : Nat) (id : BlockId) :
    Prop where
  bytes : ∀ p < size,
    value[i * pf.flags.blockSize + p]? = some (diskByte pf.flags s.files id p)
  checksums : pf.flags.enableDiskChecksum = true → ∀ k, k * pf.flags.sliceSize < size →
    s.checksums id k = pf.crc32c ((value.drop (i * pf.flags.blockSize + k * pf.flags.sliceSize)).take
      (min ((k + 1) * pf.flags.sliceSize) size - k * pf.flags.sliceSize))

/-- Every disk block of the index is one of a value that has been set. -/
def DiskComplete (rt : Runtime) (history : List Record) (s : State) : Prop :=
  ∀ id r, s.find id = some r → ∃ value, latestValue (s.items r).cacheKey history = some value ∧
    (s.items r).size = value.length ∧ ∀ i b block, s.HasBlock r i b →
      b.diskBlockItem = some block →
        WholeOnDisk rt.toPlatform s value i ((s.items r).blockSize rt.flags i) block

theorem BlockOnDisk.whole {pf : Platform} {value : IOBuf} {i : Nat} {id : BlockId}
    (h : BlockOnDisk pf s (blockPart pf.flags value i) id) :
    WholeOnDisk pf s value i (blockPart pf.flags value i).length id := by
  have hle := length_blockPart_le pf.flags value i
  have hget : ∀ p < (blockPart pf.flags value i).length,
      (blockPart pf.flags value i)[p]? = value[i * pf.flags.blockSize + p]? := by
    intro p hp
    unfold blockPart
    rw [List.getElem?_take, if_pos (Nat.lt_of_lt_of_le hp hle), List.getElem?_drop]
  constructor
  · intro p hp
    obtain ⟨hlow, hhigh⟩ := div_mul_bounds p pf.flags.sliceSize_pos
    rw [← hget p hp, (h _ (Nat.lt_of_le_of_lt hlow hp)).content p hlow hhigh hp]
  · intro hon k hk
    rw [(h k hk).checksum hon]
    congr 1
    apply List.ext_getElem?
    intro p
    rw [List.getElem?_take, List.getElem?_take, List.getElem?_drop, List.getElem?_drop,
      Nat.succ_mul, Nat.add_assoc]
    by_cases hp : k * pf.flags.sliceSize + p < (blockPart pf.flags value i).length
    · rw [hget _ hp]
      split <;> split <;> first | rfl | omega
    · rw [List.getElem?_eq_none (Nat.not_lt.mp hp), ite_self, if_neg (by omega)]

/-- Between calls every disk block of the index is complete. -/
theorem disk_complete (hdata : DataHyp rt.toPlatform) (hrun : Run rt options history s)
    (hsmall : ∀ record ∈ history, record.call.Bounded 2147483648) : DiskComplete rt history s := by
  obtain ⟨val, hsound⟩ := hrun.bytes hdata hsmall
  intro id r hfind
  have hlive := hsound.inv.wf.indexed_live hfind
  have hitem := hsound.inv.content trivial r hlive
  refine ⟨val r, hsound.latest id r hfind, hitem.size, fun i b block hb hblock => ?_⟩
  have hlength : (s.items r).blocks.length = (s.items r).blockCount rt.flags :=
    hsound.inv.wf.length r hlive
  have hindex : i < (s.items r).blockCount rt.flags := by
    rw [← hlength]
    exact (List.getElem?_eq_some_iff.mp hb).1
  have hsize : (s.items r).blockSize rt.flags i = (blockPart rt.flags (val r) i).length :=
    hitem.blockSize hdata.toGeometry hindex
  rw [hsize]
  obtain ⟨hbytes, hchecksums⟩ := (hitem.disk i b block hb hblock).whole
  exact ⟨hbytes, hchecksums⟩

/-- The short last block of an object that has been flushed. -/
theorem disk_complete_small : ∃ history s, Run (.simple .small .reliable) (.oneDir 8 16) history s ∧
    ∃ block, WholeOnDisk (.simple .small .reliable) s [1, 2, 3, 4, 5] 1 1 block := by
  obtain ⟨history, s, hrun, hp⟩ := Run.of_calls (.simple .small .reliable)
    (.oneDir 8 16) [.set [1] [1, 2, 3, 4, 5] none, .set [2] [6, 7, 8, 9] none, .get [1] none]
    (fun history s => decide (s.find 1 = some 0 ∧
      latestValue (s.items 0).cacheKey history = some [1, 2, 3, 4, 5] ∧
      (s.items 0).blockSize Flags.small 1 = 1 ∧
      ((s.items 0).blocks[1]?.bind BlockItem.diskBlockItem).isSome = true ∧
      (∀ record ∈ history, record.call.Bounded 2147483648))) (by decide +kernel)
  obtain ⟨hfind, hlatest, hsize, hblock, hsmall⟩ := of_decide_eq_true hp
  obtain ⟨value, hvalue, _, hblocks⟩ := disk_complete
    (dataHyp_reliable geometry_small (.inl rfl)) hrun hsmall 1 0 hfind
  obtain rfl : value = [1, 2, 3, 4, 5] := Option.some.inj (hvalue.symm.trans hlatest)
  obtain ⟨block, hblock⟩ := Option.isSome_iff_exists.mp hblock
  obtain ⟨b, hb, hdisk⟩ := Option.bind_eq_some_iff.mp hblock
  have hwhole : WholeOnDisk (.simple .small .reliable) s [1, 2, 3, 4, 5] 1
      ((s.items 0).blockSize Flags.small 1) block := hblocks 1 b block hb hdisk
  rw [hsize] at hwhole
  exact ⟨history, s, hrun, block, hwhole⟩

theorem DiskComplete.byte (h : DiskComplete rt history s) {id : CacheId} {r i p : Nat}
    {value : IOBuf} {block : BlockId} (hfind : s.find id = some r)
    (hvalue : latestValue (s.items r).cacheKey history = some value)
    (hblock : (s.items r).blocks[i]?.bind BlockItem.diskBlockItem = some block)
    (hp : p < (s.items r).blockSize rt.flags i) :
    value[i * rt.flags.blockSize + p]? = some (diskByte rt.flags s.files block p) := by
  obtain ⟨value', hvalue', _, hblocks⟩ := h id r hfind
  obtain rfl : value' = value := Option.some.inj (hvalue'.symm.trans hvalue)
  obtain ⟨b, hb, hdisk⟩ := Option.bind_eq_some_iff.mp hblock
  exact (hblocks i b block hb hdisk).bytes p hp

/-- Direct transfers of two blocks. -/
def Flags.padded : Flags :=
  { Flags.small with
    enableOsPageCache := false, ioAlignUnitSize := 8, ioAlignUnitSize_pos := by decide }

/-- A write that is padded beyond its block overwrites the next one. -/
theorem disk_incomplete : ∃ history s, Run (.simple .padded .reliable) (.oneDir 100 8) history s ∧
    ¬ DiskComplete (.simple .padded .reliable) history s := by
  obtain ⟨history, s, hrun, hp⟩ := Run.of_calls (.simple .padded .reliable)
    (.oneDir 100 8)
    [.set [1] [1, 2, 3, 4] (some { mode := .writeThrough }),
      .set [2] [5, 6, 7, 8] (some { mode := .writeThrough }), .remove [1],
      .set [3] [9, 10, 11, 12] (some { mode := .writeThrough })]
    (fun history s => decide (s.find 2 = some 1 ∧
      latestValue (s.items 1).cacheKey history = some [5, 6, 7, 8] ∧
      (s.items 1).blocks[0]?.bind BlockItem.diskBlockItem = some ⟨0, 1⟩ ∧
      0 < (s.items 1).blockSize Flags.padded 0 ∧ diskByte .padded s.files ⟨0, 1⟩ 0 ≠ 5))
    (by decide +kernel)
  obtain ⟨hfind, hvalue, hblock, hsize, hbyte⟩ := of_decide_eq_true hp
  refine ⟨history, s, hrun, fun h => hbyte ?_⟩
  exact (Option.some.inj (h.byte hfind hvalue hblock hsize)).symm

end Integrity

end StarCache
