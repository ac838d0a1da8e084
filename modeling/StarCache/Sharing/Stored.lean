import StarCache.Sharing.Index

/-!
# What is stored

The bytes of an object are those of its slices in memory, and those on disk of the others. They are
read off the segments and the files, without the value that is recorded with the item: where all of
them are there they are this value, and when the index gets an item they are.
-/

namespace StarCache

namespace Sharing

open Discipline Pool Function

namespace Shared

variable (flags : Flags) (s : Shared)

/-- A byte of a memory block, if there is a segment for its slice. -/
def memByte (m : MemRef) (n : Nat) : Option UInt8 :=
  match (s.memBlocks m).slices[n / flags.sliceSize]? with
  | some (some g) => (s.segments g).buf[n - (s.segments g).offset]?
  | _ => none

/-- A byte of a block of an item, which is taken from memory rather than from disk. -/
def blockByte (r : ItemRef) (i n : Nat) : Option UInt8 :=
  match (s.memSlot r i).bind fun m => s.memByte flags m n with
  | some b => some b
  | none => (s.diskSlot r i).map fun d => diskByte flags s.files (s.diskBlocks d).id n

/-- A byte of an item. -/
def byteAt (r : ItemRef) (n : Nat) : Option UInt8 :=
  s.blockByte flags r (n / flags.blockSize) (n % flags.blockSize)

/-- The bytes of an item, if none is missing. -/
def bytes (r : ItemRef) : Option IOBuf :=
  if ∀ n < (s.items r).size, (s.byteAt flags r n).isSome = true then
    some ((List.range (s.items r).size).map fun n => (s.byteAt flags r n).getD 0)
  else none

/-- The item that a get is given for a key. -/
def current (su : Setup) (s : Shared) (cacheKey : CacheKey) : Option ItemRef :=
  (s.index (su.cachekey2id cacheKey)).filter fun r =>
    (s.items r).cacheKey = cacheKey ∧ (s.items r).released = false

/-- What is stored for a key. -/
def stored (su : Setup) (s : Shared) (cacheKey : CacheKey) : Option IOBuf :=
  (s.current su cacheKey).bind fun r => s.bytes su.flags r

/-- What a get that has the cache for itself is given for a key, if no block is missing. -/
def visible (su : Setup) (s : Shared) (cacheKey : CacheKey) : Option IOBuf :=
  (s.current su cacheKey).map fun r => (s.items r).value

end Shared

open Shared

variable {flags : Flags} {V : Objects} {s : Shared} {r : ItemRef} {i n : Nat} {m : MemRef}
  {d : DiskRef}

/-! ## Bytes of a block -/

theorem getElem?_blockPart (value : IOBuf) (hn : n < value.length) :
    n % flags.blockSize < (blockPart flags value (n / flags.blockSize)).length ∧
      (blockPart flags value (n / flags.blockSize))[n % flags.blockSize]? = value[n]? := by
  have hlt := Nat.mod_lt n flags.blockSize_pos
  have hsum := Nat.div_add_mod' n flags.blockSize
  constructor
  · rw [length_blockPart]
    omega
  · unfold blockPart
    rw [List.getElem?_take_of_lt hlt, List.getElem?_drop, hsum]

/-- What is in memory of a block is a part of the object. -/
theorem memByte_part (hs : Contents flags V s) (hm : s.memSlot r i = some m)
    (hn : n < (s.part flags r i).length) (hslice : s.HasSlice m (n / flags.sliceSize)) :
    s.memByte flags m n = (s.part flags r i)[n]? := by
  obtain ⟨hlt, howner⟩ := hs.memSlot r i m hm
  obtain ⟨g, hg⟩ := hslice
  obtain ⟨_, hok, hcovers⟩ := (hs.mem m hlt).segment _ g hg
  rw [howner] at hok
  unfold memByte
  rw [hg]
  refine slice_content hok hcovers (Nat.div_mul_le_self ..) ?_ hn
  exact Nat.lt_mul_of_div_lt (Nat.lt_succ_self _) flags.sliceSize_pos

theorem memByte_none (h : ¬ s.HasSlice m (n / flags.sliceSize)) : s.memByte flags m n = none := by
  unfold memByte
  split
  next g hg => exact absurd ⟨g, hg⟩ h
  next => rfl

/-- What is on disk of a block is a part of the object. -/
theorem diskByte_part (hs : Inv flags V s) (hd : s.diskSlot r i = some d)
    (hn : n < (s.part flags r i).length) :
    some (diskByte flags s.files (s.diskBlocks d).id n) = (s.part flags r i)[n]? := by
  obtain ⟨howner, hpub⟩ := hs.contents.diskSlot r i d hd
  have halive : s.diskHolders d ≠ [] := List.ne_nil_of_mem (alive_of_slot hs.ledger.counted hd)
  have hgood := hs.contents.good d halive hpub n
  unfold GoodAt at hgood
  rw [howner] at hgood
  exact hgood hn

/-- A byte that is there is that of the object, and it is there if the block is not missing. -/
theorem blockByte_part (hs : Inv flags V s) (hn : n < (s.part flags r i).length)
    (h : s.Whole flags r i ∨ (s.blockByte flags r i n).isSome = true) :
    s.blockByte flags r i n = (s.part flags r i)[n]? := by
  have hmem : ∀ m, s.memSlot r i = some m → s.HasSlice m (n / flags.sliceSize) →
      s.blockByte flags r i n = (s.part flags r i)[n]? := by
    intro m hm hslice
    have hbyte := memByte_part hs.contents hm hn hslice
    rw [List.getElem?_eq_getElem hn] at hbyte ⊢
    unfold blockByte
    rw [hm, Option.bind_some, hbyte]
  have hdisk : ∀ d, s.diskSlot r i = some d →
      (∀ m, s.memSlot r i = some m → ¬ s.HasSlice m (n / flags.sliceSize)) →
      s.blockByte flags r i n = (s.part flags r i)[n]? := by
    intro d hd hnone
    have hbyte : ((s.memSlot r i).bind fun m => s.memByte flags m n) = none :=
      Option.bind_eq_none_iff.mpr fun m hm => memByte_none (hnone m hm)
    unfold blockByte
    rw [hbyte, hd]
    exact diskByte_part hs hd hn
  by_cases hslice : ∃ m, s.memSlot r i = some m ∧ s.HasSlice m (n / flags.sliceSize)
  · obtain ⟨m, hm, hslice⟩ := hslice
    exact hmem m hm hslice
  · have hnone : ∀ m, s.memSlot r i = some m → ¬ s.HasSlice m (n / flags.sliceSize) :=
      fun m hm h => hslice ⟨m, hm, h⟩
    cases hd : s.diskSlot r i with
    | some d => exact hdisk d hd hnone
    | none =>
        rcases h with (⟨m, hm, hfull⟩ | ⟨d, hdisk⟩) | h
        · exact absurd (hfull n hn) (hnone m hm)
        · cases hd.symm.trans hdisk
        · have hbyte : ((s.memSlot r i).bind fun m => s.memByte flags m n) = none :=
            Option.bind_eq_none_iff.mpr fun m hm => memByte_none (hnone m hm)
          unfold blockByte at h
          rw [hbyte, hd] at h
          cases h

/-! ## Bytes of an item -/

theorem byteAt_value (hs : Inv flags V s) (hn : n < (s.items r).size)
    (h : s.Whole flags r (n / flags.blockSize) ∨ (s.byteAt flags r n).isSome = true) :
    s.byteAt flags r n = (s.items r).value[n]? := by
  obtain ⟨hlt, heq⟩ := @getElem?_blockPart flags n (s.items r).value hn
  exact (blockByte_part hs hlt h).trans heq

theorem bytes_eq_some (hs : Inv flags V s)
    (h : ∀ n < (s.items r).size,
      s.Whole flags r (n / flags.blockSize) ∨ (s.byteAt flags r n).isSome = true) :
    s.bytes flags r = some (s.items r).value := by
  have hbyte : ∀ n, ∀ hn : n < (s.items r).value.length,
      s.byteAt flags r n = some (s.items r).value[n] := fun n hn => by
    rw [byteAt_value hs hn (h n hn), List.getElem?_eq_getElem hn]
  unfold bytes
  rw [if_pos fun n hn => by rw [hbyte n hn]; rfl]
  refine congrArg some (List.ext_getElem ?_ fun n hn hn' => ?_)
  · rw [List.length_map, List.length_range]
    rfl
  · rw [List.getElem_map, List.getElem_range, hbyte n hn']
    rfl

/-- What is stored of an item is its value. -/
theorem bytes_value {buf : IOBuf} (hs : Inv flags V s) (h : s.bytes flags r = some buf) :
    (s.items r).value = buf := by
  have hall : ∀ n < (s.items r).size, (s.byteAt flags r n).isSome = true := by
    unfold bytes at h
    split at h
    next hall => exact hall
    next => cases h
  exact Option.some.inj ((bytes_eq_some hs fun n hn => Or.inr (hall n hn)).symm.trans h)

/-- All of an item that is complete is stored. -/
theorem Shared.Complete.bytes (h : s.Complete flags r) (hs : Inv flags V s) :
    s.bytes flags r = some (s.items r).value := by
  refine bytes_eq_some hs fun n hn => Or.inl (h.whole _ ?_)
  have hsize : n < (s.items r).value.length := hn
  show n / flags.blockSize < blockCountOf flags (s.items r).value.length
  rw [lt_blockCountOf]
  exact Nat.lt_of_le_of_lt (Nat.div_mul_le_self ..) hsize

/-- An item that the index gets stays complete. -/
theorem Shared.Complete.link {t : Nat} {id : CacheId} (h : s.Complete flags r)
    (hr : .thread t ∈ s.itemHolders r) : (s.link flags id r).Complete flags r := by
  have hkept : (s.link flags id r).itemHolders r ≠ [] := by
    apply List.ne_nil_of_mem (a := ItemHolder.thread t)
    rw [mem_itemHolders, held_link, ← mem_itemHolders]
    exact hr
  have hblocks : (s.link flags id r).memBlocks = s.memBlocks := by
    show (s.clearIndex flags id).memBlocks = _
    rw [(clearIndex_gives s id).eq]
  obtain ⟨_, hmem, hdisk⟩ := link_alive hr hkept
  constructor
  · rw [link_items, if_pos rfl]
    exact h.unreleased
  · intro i hi
    have hitem := @link_item flags s id r r
    unfold blockCount Item.size at hi
    rw [hitem.2] at hi
    have hwhole := h.whole i hi
    unfold Whole Full HasSlice part at hwhole ⊢
    rwa [hmem, hdisk, hblocks, hitem.2]

/-! ## What the cache has for a key -/

variable {su : Setup} {cacheKey : CacheKey} {value : IOBuf}

theorem Shared.current_eq_some : s.current su cacheKey = some r ↔
    s.index (su.cachekey2id cacheKey) = some r ∧ (s.items r).cacheKey = cacheKey ∧
      (s.items r).released = false := by
  unfold current
  rw [Option.filter_eq_some_iff, decide_eq_true_iff]

theorem Shared.visible_eq_some : s.visible su cacheKey = some value ↔
    ∃ r, s.index (su.cachekey2id cacheKey) = some r ∧ (s.items r).cacheKey = cacheKey ∧
      (s.items r).released = false ∧ (s.items r).value = value := by
  unfold visible
  rw [Option.map_eq_some_iff]
  refine exists_congr fun r => ?_
  rw [current_eq_some, and_assoc, and_assoc]

/-- What is stored for a key is what is visible. -/
theorem stored_visible (hs : Inv su.flags V s) (h : s.stored su cacheKey = some value) :
    s.visible su cacheKey = some value := by
  obtain ⟨r, hcurrent, hbytes⟩ := Option.bind_eq_some_iff.mp h
  exact Option.map_eq_some_iff.mpr ⟨r, hcurrent, bytes_value hs hbytes⟩

section Runs

variable {files : Nat → Nat → Nat → UInt8} {past : Past} {p q : Flight} {t : Nat} {id : CacheId}

/-- The item that a thread inserts is complete, and is stored for its key then. -/
theorem inserted_stored (hflags : Sized su.flags) (hrun : CheckedRun su files past p)
    (hcalls : Calls Call.Proper past) (hstep : CheckedStep su (.act t (.insert id r) ()) p q) :
    p.shared.bytes su.flags r = some (p.shared.items r).value ∧
      q.shared.stored su (p.shared.items r).cacheKey = some (p.shared.items r).value ∧
      q.shared.visible su (p.shared.items r).cacheKey = some (p.shared.items r).value := by
  obtain ⟨cacheKey, _, _, _, rfl, _, _, hkey, _, hcomplete⟩ := insert_step hflags hrun hcalls hstep
  obtain ⟨hinv, _⟩ := reaches_inv hflags hrun hcalls
  obtain ⟨hinv', _⟩ := reaches_inv hflags (hrun.step hstep) (hcalls.cons nofun)
  have hheld : .thread t ∈ p.shared.itemHolders r := by
    cases hstep with
    | act hact heffect =>
        simp only [effect] at heffect
        split at heffect
        next h => exact h
        next => cases heffect
  have hshared := inserted_shared hstep
  have hafter : q.shared.Complete su.flags r := hshared ▸ hcomplete.link hheld
  have hitem := @link_item su.flags p.shared (su.cachekey2id cacheKey) r r
  rw [← hshared] at hitem
  have hcurrent : q.shared.current su (p.shared.items r).cacheKey = some r := by
    refine Shared.current_eq_some.mpr ⟨?_, hitem.1, hafter.unreleased⟩
    rw [hkey, hshared, link_index, if_pos rfl]
  refine ⟨hcomplete.bytes hinv, ?_, ?_⟩
  · unfold stored
    rw [hcurrent, Option.bind_some, hafter.bytes hinv', hitem.2]
  · unfold visible
    rw [hcurrent, Option.map_some, hitem.2]

end Runs

end Sharing

end StarCache
