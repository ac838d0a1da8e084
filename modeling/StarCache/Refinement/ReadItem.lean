import StarCache.Content.Addressing
import StarCache.Refinement.Read

/-!
# Reading an object

`_read_cache_item` aligns the range that was asked for to slices, reads it block by
block and cuts the result. The blocks of a range tile it.
-/

namespace StarCache

open Prog MachineInt

/-! ## Tiling a range -/

/-- Consecutive pieces of a list. -/
theorem flatten_pieces {α : Type} (xs : List α) {bound : Nat → Nat} (hmono : Monotone bound) :
    ∀ (n i : Nat), ((List.range' i n).map fun j =>
      (xs.drop (bound j)).take (bound (j + 1) - bound j)).flatten =
        (xs.drop (bound i)).take (bound (i + n) - bound i)
  | 0, i => by simp
  | n + 1, i => by
      rw [List.range'_succ, List.map_cons, List.flatten_cons, flatten_pieces xs hmono n (i + 1),
        show i + (n + 1) = i + 1 + n by omega,
        take_append_drop xs (hmono (Nat.le_succ i)) (hmono (Nat.le_add_right _ _))]

/-- Where block `j` begins within the range from `lower` up to `stop`. -/
def rangeBound (flags : Flags) (lower stop j : Nat) : Nat := min stop (max lower (j * flags.blockSize))

theorem rangeBound_mono (flags : Flags) (lower stop : Nat) : Monotone (rangeBound flags lower stop) := by
  intro i j hij
  have := Nat.mul_le_mul_right flags.blockSize hij
  unfold rangeBound
  omega

/-- A range of an object as `_read_cache_item` aligns it. -/
structure ItemRange (flags : Flags) (value : IOBuf) (lower upper : Nat) : Prop where
  aligned : flags.sliceSize ∣ lower
  le : lower ≤ upper
  lt : upper < value.length
  ends : flags.sliceSize ∣ upper + 1 ∨ upper + 1 = value.length

section Ranges

variable {flags : Flags} {value : IOBuf} {lower upper : Nat}

/-- The piece of block `i`, between the first and the last block of the range. -/
theorem rangeBound_of_mem {i : Nat} (hle : lower ≤ upper)
    (hfirst : lower / flags.blockSize ≤ i) (hlast : i ≤ upper / flags.blockSize) :
    rangeBound flags lower (upper + 1) i = max lower (i * flags.blockSize) ∧
      rangeBound flags lower (upper + 1) (i + 1) = min (upper + 1) ((i + 1) * flags.blockSize) ∧
      max lower (i * flags.blockSize) < min (upper + 1) ((i + 1) * flags.blockSize) := by
  have hbs := flags.blockSize_pos
  have hlow := (Nat.le_div_iff_mul_le hbs).mp hlast
  have hhigh : lower < (i + 1) * flags.blockSize :=
    (Nat.div_lt_iff_lt_mul hbs).mp (Nat.lt_succ_of_le hfirst)
  have hstep : (i + 1) * flags.blockSize = i * flags.blockSize + flags.blockSize :=
    Nat.succ_mul i flags.blockSize
  unfold rangeBound
  omega

/-- The ranges of the blocks. -/
theorem blockRanges_eq (hle : lower ≤ upper) (hlt : upper < 4294967296) :
    StarCacheImpl.blockRanges flags lower upper =
      (List.range' (lower / flags.blockSize)
        (upper / flags.blockSize + 1 - lower / flags.blockSize)).map fun i =>
          ⟨i, (rangeBound flags lower (upper + 1) i - i * flags.blockSize : Nat),
            rangeBound flags lower (upper + 1) (i + 1) -
              rangeBound flags lower (upper + 1) i⟩ := by
  have hbs := flags.blockSize_pos
  have hfirst : u32 (off2block flags lower) = lower / flags.blockSize :=
    u32_off2block (by omega)
  have hlast : u32 (off2block flags upper) = upper / flags.blockSize := u32_off2block hlt
  unfold StarCacheImpl.blockRanges
  simp only [hfirst, hlast]
  refine List.map_congr_left fun i hi => ?_
  rw [List.mem_range'_1] at hi
  have hi' : i ≤ upper / flags.blockSize := by omega
  obtain ⟨hlo, hhi, hne⟩ := rangeBound_of_mem hle hi.1 hi'
  have hbelow := (Nat.le_div_iff_mul_le hbs).mp hi'
  have hlower : blockLower flags i = i * flags.blockSize := blockLower_natCast (by omega)
  have hstep : (i + 1) * flags.blockSize = i * flags.blockSize + flags.blockSize :=
    Nat.succ_mul i flags.blockSize
  -- the offset of the first byte in the block
  have hoffset : (if i = lower / flags.blockSize then (lower : Int) - blockLower flags i else 0) =
      (max lower (i * flags.blockSize) - i * flags.blockSize : Nat) := by
    rw [hlower]
    split
    next heq =>
      have := (div_mul_bounds lower hbs).1
      rw [← heq] at this
      rw [Nat.max_eq_left this, Int.ofNat_sub this]
    next hne' =>
      have : lower ≤ i * flags.blockSize := by
        have h := (div_mul_bounds lower hbs).2
        have := Nat.mul_le_mul_right flags.blockSize
          (show lower / flags.blockSize + 1 ≤ i by omega)
        omega
      rw [Nat.max_eq_right this, Nat.sub_self]
      rfl
  rw [hoffset, hlo, hhi]
  congr 1
  have hend := (div_mul_bounds upper hbs).2
  split
  next heq =>
    rw [← heq] at hend
    rw [hlower, show ((upper : Int) - ((i * flags.blockSize : Nat) +
        (max lower (i * flags.blockSize) - i * flags.blockSize : Nat)) + 1) =
      (upper + 1 - max lower (i * flags.blockSize) : Nat) by omega, u64_of_lt (by omega)]
    omega
  next hne' =>
    have : (i + 1) * flags.blockSize ≤ upper := by
      have h := (div_mul_bounds upper hbs).1
      have := Nat.mul_le_mul_right flags.blockSize
        (show i + 1 ≤ upper / flags.blockSize by omega)
      omega
    rw [show ((flags.blockSize : Int) -
        (max lower (i * flags.blockSize) - i * flags.blockSize : Nat)) =
      ((i + 1) * flags.blockSize - max lower (i * flags.blockSize) : Nat) by omega,
      u64_of_lt (by omega)]
    omega

/-- A piece is a range of its block that begins and ends as a read of a block needs it. -/
theorem ItemRange.sliceRange (hgeo : Geometry flags) (h : ItemRange flags value lower upper)
    {i : Nat} (hfirst : lower / flags.blockSize ≤ i) (hlast : i ≤ upper / flags.blockSize) :
    SliceRange flags (blockPart flags value i)
      (rangeBound flags lower (upper + 1) i - i * flags.blockSize)
      (rangeBound flags lower (upper + 1) i - i * flags.blockSize +
        (rangeBound flags lower (upper + 1) (i + 1) - rangeBound flags lower (upper + 1) i)) := by
  obtain ⟨hlo, hhi, hne⟩ := rangeBound_of_mem h.le hfirst hlast
  have hlt := h.lt
  have hstep : (i + 1) * flags.blockSize = i * flags.blockSize + flags.blockSize :=
    Nat.succ_mul i flags.blockSize
  have hdvd : flags.sliceSize ∣ i * flags.blockSize := hgeo.slice_dvd.mul_left i
  have hdvd' : flags.sliceSize ∣ (i + 1) * flags.blockSize := hgeo.slice_dvd.mul_left (i + 1)
  rw [hlo, hhi]
  have hsum : max lower (i * flags.blockSize) - i * flags.blockSize +
      (min (upper + 1) ((i + 1) * flags.blockSize) - max lower (i * flags.blockSize)) =
      min (upper + 1) ((i + 1) * flags.blockSize) - i * flags.blockSize := by omega
  rw [hsum]
  refine ⟨Nat.dvd_sub ?_ hdvd, by omega, ?_, ?_⟩
  · rcases le_total lower (i * flags.blockSize) with hle | hle
    · rwa [Nat.max_eq_right hle]
    · rw [Nat.max_eq_left hle]
      exact h.aligned
  · rw [length_blockPart]
    omega
  · rcases le_total (upper + 1) ((i + 1) * flags.blockSize) with hle | hle
    · rw [Nat.min_eq_left hle]
      refine h.ends.imp (fun hend => Nat.dvd_sub hend hdvd) fun hend => ?_
      rw [length_blockPart]
      omega
    · rw [Nat.min_eq_right hle]
      exact Or.inl (Nat.dvd_sub hdvd' hdvd)

theorem blockPart_piece {i lo size : Nat} (hfit : lo + size ≤ flags.blockSize) :
    ((blockPart flags value i).drop lo).take size =
      (value.drop (i * flags.blockSize + lo)).take size := by
  unfold blockPart
  rw [List.drop_take, List.take_take, List.drop_drop, Nat.min_eq_left (by omega)]

/-- Together the pieces are the range. -/
theorem ItemRange.pieces (h : ItemRange flags value lower upper)
    (hlen : value.length ≤ 4294967296) :
    ((StarCacheImpl.blockRanges flags lower upper).map fun range =>
      ((blockPart flags value range.blockIndex).drop range.offset.toNat).take range.size).flatten =
        (value.drop lower).take (upper + 1 - lower) := by
  have hbs := flags.blockSize_pos
  have hle := h.le
  have hlt := h.lt
  have hfirst := div_mul_bounds lower hbs
  have hlast := div_mul_bounds upper hbs
  have hcount : lower / flags.blockSize + (upper / flags.blockSize + 1 - lower / flags.blockSize) =
      upper / flags.blockSize + 1 := by
    have := Nat.div_le_div_right (c := flags.blockSize) hle
    omega
  have hstart : rangeBound flags lower (upper + 1) (lower / flags.blockSize) = lower := by
    unfold rangeBound
    omega
  have hstop : rangeBound flags lower (upper + 1) (upper / flags.blockSize + 1) = upper + 1 := by
    unfold rangeBound
    omega
  have hflat := flatten_pieces value (rangeBound_mono flags lower (upper + 1))
    (upper / flags.blockSize + 1 - lower / flags.blockSize) (lower / flags.blockSize)
  rw [hcount, hstart, hstop] at hflat
  rw [blockRanges_eq hle (by omega), List.map_map, ← hflat]
  congr 1
  refine List.map_congr_left fun i hi => ?_
  rw [List.mem_range'_1] at hi
  obtain ⟨hlo, hhi, _⟩ := rangeBound_of_mem hle hi.1 (by omega)
  have hstep : (i + 1) * flags.blockSize = i * flags.blockSize + flags.blockSize :=
    Nat.succ_mul i flags.blockSize
  dsimp only [Function.comp]
  rw [Int.toNat_natCast, blockPart_piece (by omega)]
  congr 2
  omega

end Ranges

/-! ## Walking over the blocks -/

namespace StarCacheImpl

variable {rt : Runtime} {sc : Scenario rt.toPlatform} {s : State} {g : Ghost} {r : ItemRef}
  {id : CacheId}

/-- The block of the range holds every slice of it, in the sense of `K`. -/
def HoldsRange (flags : Flags) (K : Nat → BlockItem → Prop) (s : State) (r : ItemRef)
    (range : BlockRange) : Prop :=
  ∀ k, range.offset.toNat ≤ k * flags.sliceSize →
    k * flags.sliceSize < range.offset.toNat + range.size →
      ∃ b, s.HasBlock r range.blockIndex b ∧ K k b

/-- The range is a part of its block, or void. -/
def RangePart (flags : Flags) (value : IOBuf) (whole : Nat → Nat → Prop) (range : BlockRange) : Prop :=
  0 ≤ range.offset ∧ (PartRange flags (blockPart flags value range.blockIndex)
      (whole range.blockIndex) range.offset.toNat (range.offset.toNat + range.size) ∨
    VoidRange flags range.offset.toNat range.size)

/-- The range is one that a read of its block can answer. -/
def RangeOk (flags : Flags) (value : IOBuf) (range : BlockRange) : Prop :=
  0 ≤ range.offset ∧ SliceRange flags (blockPart flags value range.blockIndex)
    range.offset.toNat (range.offset.toNat + range.size)

theorem RangeOk.part {flags : Flags} {value : IOBuf} {whole : Nat → Nat → Prop}
    {range : BlockRange} (h : RangeOk flags value range) : RangePart flags value whole range :=
  ⟨h.1, Or.inl h.2.part⟩

theorem RangeOk.not_void {flags : Flags} {value : IOBuf} {range : BlockRange}
    (hgeo : Geometry flags) (h : RangeOk flags value range) :
    ¬ VoidRange flags range.offset.toNat range.size := by
  rintro ⟨_, hvoid⟩
  have hlt := h.2.lt
  have hle := h.2.le
  have hlen := length_blockPart_le flags value range.blockIndex
  have hblock := hgeo.block_le
  omega

/-- The pieces of any range that ends within the object. -/
theorem rangesPart {flags : Flags} {value : IOBuf} {whole : Nat → Nat → Prop} {lower upper : Nat}
    (hgeo : Geometry flags) (hwhole : ∀ i k, ¬ whole i k) (hlower : lower < 4294967296)
    (hupper : upper < 4294967296) (hlt : upper < value.length) :
    ∀ range ∈ blockRanges flags lower upper, RangePart flags value whole range := by
  have hbs := flags.blockSize_pos
  have hblock := hgeo.block_le
  intro range hrange
  by_cases hle : lower ≤ upper
  · rw [blockRanges_eq hle hupper] at hrange
    obtain ⟨i, hi, rfl⟩ := List.mem_map.mp hrange
    rw [List.mem_range'_1] at hi
    obtain ⟨hlo, hhi, hne⟩ := rangeBound_of_mem hle hi.1 (by omega)
    have hstep : (i + 1) * flags.blockSize = i * flags.blockSize + flags.blockSize :=
      Nat.succ_mul i flags.blockSize
    unfold RangePart
    dsimp only
    rw [Int.toNat_natCast, hlo, hhi]
    refine ⟨Int.natCast_nonneg _, Or.inl ⟨by omega, ?_, Or.inr (hwhole i)⟩⟩
    rw [length_blockPart]
    omega
  · -- the end has wrapped around
    obtain ⟨hbelow, habove⟩ := div_mul_bounds lower hbs
    obtain ⟨hbelow', habove'⟩ := div_mul_bounds upper hbs
    have hdiv : upper / flags.blockSize ≤ lower / flags.blockSize :=
      Nat.div_le_div_right (by omega)
    unfold blockRanges at hrange
    rw [u32_off2block hlower, u32_off2block hupper] at hrange
    obtain ⟨i, hi, rfl⟩ := List.mem_map.mp hrange
    rw [List.mem_range'_1] at hi
    have hfirst : i = lower / flags.blockSize := by omega
    have hlast : i = upper / flags.blockSize := by omega
    rw [← hfirst] at hbelow habove
    rw [← hlast] at hbelow' habove'
    have hstep : (i + 1) * flags.blockSize = i * flags.blockSize + flags.blockSize :=
      Nat.succ_mul i flags.blockSize
    have hoffset : (lower : Int) - blockLower flags i = (lower - i * flags.blockSize : Nat) := by
      rw [blockLower_natCast (by omega), Int.ofNat_sub hbelow]
    have hlow : blockLower flags i = i * flags.blockSize := blockLower_natCast (by omega)
    unfold RangePart VoidRange
    dsimp only
    rw [if_pos hfirst, if_pos hlast, hoffset, Int.toNat_natCast, hlow]
    refine ⟨Int.natCast_nonneg _, Or.inr ⟨by omega, ?_⟩⟩
    have hsize : (upper : Int) - ((i * flags.blockSize : Nat) +
        (lower - i * flags.blockSize : Nat)) + 1 = (upper : Int) + 1 - lower := by omega
    rw [hsize]
    by_cases hempty : upper + 1 = lower
    · left
      rw [show (upper : Int) + 1 - lower = (0 : Nat) by omega]
      exact u64_of_lt (by omega)
    right
    have hwrap : u64 ((upper : Int) + 1 - lower) = 18446744073709551616 + (upper + 1) - lower := by
      unfold u64
      omega
    have hend : off2slice flags (((lower - i * flags.blockSize : Nat) : Int) +
        (18446744073709551616 + (upper + 1) - lower : Nat) - 1) =
          off2slice flags (upper - i * flags.blockSize : Nat) := by
      unfold off2slice u64
      congr 3
      omega
    rw [hwrap, hend, off2slice_natCast (by omega), off2slice_natCast (by omega)]
    refine ⟨by omega, ?_⟩
    exact_mod_cast Nat.div_le_div_right (by omega)

/-- The pieces of an aligned range. -/
theorem rangesOk {flags : Flags} {value : IOBuf} {lower upper : Nat} (hgeo : Geometry flags)
    (h : ItemRange flags value lower upper) (hupper : upper < 4294967296) :
    ∀ range ∈ blockRanges flags lower upper, RangeOk flags value range := by
  intro range hrange
  rw [blockRanges_eq h.le hupper] at hrange
  obtain ⟨i, hi, rfl⟩ := List.mem_map.mp hrange
  rw [List.mem_range'_1] at hi
  unfold RangeOk
  dsimp only
  rw [Int.toNat_natCast]
  exact ⟨Int.natCast_nonneg _, h.sliceRange hgeo hi.1 (by omega)⟩

/-- What a read of the ranges may count on: `T` excludes undefined behaviour, `H` failure. -/
structure RangesServed (sc : Scenario rt.toPlatform) (T H : Prop) (s : State) (r : ItemRef)
    (ranges : List BlockRange) : Prop where
  data : T → sc.D
  subset : H → T
  inside : T → ∀ range ∈ ranges, ¬ VoidRange rt.flags range.offset.toNat range.size
  aligned : H → ∀ range ∈ ranges, RangeOk rt.flags (sc.val r) range
  whole : H → ∀ range ∈ ranges, ∀ k, range.offset.toNat ≤ k * rt.flags.sliceSize →
    k * rt.flags.sliceSize < range.offset.toNat + range.size → sc.whole r range.blockIndex k
  block : T → ∀ range ∈ ranges, ∃ b, s.HasBlock r range.blockIndex b
  defined : T → sc.T ∨ ∀ range ∈ ranges, HoldsRange rt.flags BlockItem.Cached s r range
  full : H → (sc.Reads ∧ ∀ range ∈ ranges, HoldsRange rt.flags BlockItem.Holds s r range) ∨
    ∀ range ∈ ranges, HoldsRange rt.flags BlockItem.Cached s r range

theorem HoldsRange.allResident {range : BlockRange}
    (h : HoldsRange rt.flags BlockItem.Cached s r range) {b : BlockItem}
    (hb : s.HasBlock r range.blockIndex b) : AllResident rt.flags b.slices range.offset.toNat
      (range.offset.toNat + range.size) := by
  intro k hlow hhigh
  obtain ⟨b', hb', hk⟩ := h k hlow hhigh
  obtain rfl : b' = b := Option.some.inj (hb'.symm.trans hb)
  exact hk

theorem RangesServed.served {T H : Prop} {range : BlockRange} {rest : List BlockRange}
    (h : RangesServed sc T H s r (range :: rest)) {b : BlockItem}
    (hb : s.HasBlock r range.blockIndex b) :
    Served sc T H b.diskBlockItem b.slices range.offset.toNat
      (range.offset.toNat + range.size) := by
  refine ⟨h.data, h.subset, fun ht k hlow hhigh => ?_, fun hh k hlow hhigh => ?_⟩
  · refine (h.defined ht).imp_right fun hall => ?_
    exact (hall range List.mem_cons_self).allResident hb k hlow hhigh
  · rcases h.full hh with ⟨hreads, hall⟩ | hall
    · obtain ⟨b', hb', hk⟩ := hall range List.mem_cons_self k hlow hhigh
      obtain rfl : b' = b := Option.some.inj (hb'.symm.trans hb)
      exact (BlockItem.holds_iff.mp hk).imp_left fun hdisk => ⟨hdisk, hreads⟩
    · exact Or.inr ((hall range List.mem_cons_self).allResident hb k hlow hhigh)

/-- Nothing is promoted before the last of the ranges is read. -/
def RangesQuiet (rt : Runtime) (options : Option ReadOptions) (s : State) (r : ItemRef)
    (ranges : List BlockRange) : Prop :=
  rt.promotionPolicy.Refuses options ∨
    ∀ range ∈ ranges.dropLast, HoldsRange rt.flags BlockItem.Cached s r range

/-- What is held at the start is held until it is read, unless the read itself gives up
something of the item. -/
theorem readBlocks_spec {T : Prop} (options : Option ReadOptions) : ∀ (ranges : List BlockRange)
    (buf : IOBuf) {H : Prop} {s : State}, Inv sc ⟨s, g⟩ → .item r ∈ s.locals →
    s.idOf rt.toPlatform r = id →
    (sc.D → ∀ range ∈ ranges, RangePart rt.flags (sc.val r) (sc.whole r) range) →
    RangesServed sc T H s r ranges → (H → s.find id = some r) →
    Spec T (readBlocks rt id r options ranges buf) (fun res t => Ran sc Action.InRead s g t g ∧
      (sc.D → res.1.ok = true → res.2 = buf ++ (ranges.map fun range =>
        ((blockPart rt.flags (sc.val r) range.blockIndex).drop range.offset.toNat).take
          range.size).flatten) ∧
      (H → res.1.ok = true ∨ sc.Reads ∧ t.Harmed r) ∧
      (H ∨ ranges = [] → RangesQuiet rt options s r ranges → res.1.ok = true)) s
  | [], buf, H, s, _, _, _, _, _, _ => by
      unfold readBlocks
      rw [spec_pure]
      exact ⟨.refl trivial, fun _ _ => by simp, fun _ => Or.inl rfl, fun _ _ => rfl⟩
  | range :: rest, buf, H, s, hinv, hheld, hid, hranges, hserved, hfind => by
      unfold readBlocks
      rw [spec_bind]
      have hlive := hinv.wf.local_alive hheld
      have hlt := hinv.wf.item_lt r hlive
      have hhead := fun hD => hranges hD range List.mem_cons_self
      have hkey : s.idOf rt.toPlatform r = (⟨id, range.blockIndex⟩ : BlockKey).cacheId := hid
      refine (readBlock_spec hinv hheld hkey options
        (fun hD => (Int.toNat_of_nonneg (hhead hD).1).symm)
        (fun ht => hserved.block ht range List.mem_cons_self)
        (fun b hb => hserved.served hb) (fun hD => ?_) fun hh => ?_).mono ?_
      · by_cases ht : T
        · exact Or.inl ((hhead hD).2.resolve_right (hserved.inside ht range List.mem_cons_self))
        · exact (hhead hD).2.imp_right fun hvoid => ⟨hvoid, ht⟩
      · exact ⟨(hserved.aligned hh range List.mem_cons_self).2,
          hserved.whole hh range List.mem_cons_self⟩
      rintro res u ⟨hu, hdata, hsame, hok⟩
      have hinvu := hu.inv hinv
      refine spec_ite (fun hres => ?_) fun hres => ?_
      swap
      · rw [spec_pure]
        refine ⟨hu, fun _ h => absurd h hres, fun hh => absurd (hok hh) hres, ?_⟩
        rintro (hh | hnil)
        · exact absurd (hok hh) hres
        · cases hnil
      -- where the item has not been touched everything holds as before
      have htransfer : ∀ {K : Nat → BlockItem → Prop}, u.items = s.items → ∀ range',
          HoldsRange rt.flags K s r range' → HoldsRange rt.flags K u r range' := by
        intro K hitems range' h k hlow hhigh
        unfold State.HasBlock
        rw [hitems]
        exact h k hlow hhigh
      -- what the other blocks held they hold still
      have hkeep : ¬ u.Harmed r → H → sc.Reads →
          (∀ range' ∈ range :: rest, HoldsRange rt.flags BlockItem.Holds s r range') →
          u.find id = some r ∧ ∀ range' ∈ rest, HoldsRange rt.flags BlockItem.Holds u r range' := by
        intro hharmless hh hreads hall
        have hD := hserved.data (hserved.subset hh)
        have hretain : ∀ i k, (∃ b, s.HasBlock r i b ∧ b.Holds k) →
            u.find id = some r ∧ ∃ b, u.HasBlock r i b ∧ b.Holds k := fun i k hheld =>
          (Runs.retain (durable_holds hD k) hu.runs hinv (fun h => h) (fun h => h) (hfind hh)
            hheld).resolve_left hharmless
        obtain ⟨_, hrange⟩ := hserved.aligned hh range List.mem_cons_self
        obtain ⟨k, hk⟩ := hrange.aligned
        rw [Nat.mul_comm] at hk
        have hfirst := hall range List.mem_cons_self k (Nat.le_of_eq hk) (hk ▸ hrange.lt)
        refine ⟨(hretain range.blockIndex k hfirst).1, fun range' h j hlow hhigh => ?_⟩
        exact (hretain range'.blockIndex j (hall range' (List.mem_cons_of_mem _ h) j hlow hhigh)).2
      have hcached : T → (∀ range' ∈ range :: rest, HoldsRange rt.flags BlockItem.Cached s r range') →
          u.items = s.items ∧ u.accessIndex = s.accessIndex := by
        intro ht hall
        exact hsame (hserved.data ht) (Or.inr fun b hb =>
          (hall range List.mem_cons_self).allResident hb)
      have hsafe : (H ∧ ((u.items = s.items ∧ u.accessIndex = s.accessIndex) ∨
          ¬ (sc.Reads ∧ u.Harmed r))) → (u.find id = some r ∧
            ((sc.Reads ∧ ∀ range' ∈ rest, HoldsRange rt.flags BlockItem.Holds u r range') ∨
              ∀ range' ∈ rest, HoldsRange rt.flags BlockItem.Cached u r range')) := by
        rintro ⟨hh, hsafe⟩
        rcases hserved.full hh with ⟨hreads, hall⟩ | hall
        · rcases hsafe with ⟨hitems, hindex⟩ | hharmless
          · refine ⟨?_, Or.inl ⟨hreads, fun range' h => htransfer hitems range'
              (hall range' (List.mem_cons_of_mem _ h))⟩⟩
            unfold State.find
            rw [hindex]
            exact hfind hh
          · obtain ⟨hfindu, hall'⟩ := hkeep (fun h => hharmless ⟨hreads, h⟩) hh hreads hall
            exact ⟨hfindu, Or.inl ⟨hreads, hall'⟩⟩
        · obtain ⟨hitems, hindex⟩ := hcached (hserved.subset hh) hall
          refine ⟨?_, Or.inr fun range' h => htransfer hitems range'
            (hall range' (List.mem_cons_of_mem _ h))⟩
          unfold State.find
          rw [hindex]
          exact hfind hh
      have hserved' : RangesServed sc T (H ∧ ((u.items = s.items ∧ u.accessIndex = s.accessIndex) ∨
          ¬ (sc.Reads ∧ u.Harmed r))) u r rest := by
        refine ⟨hserved.data, fun hh => hserved.subset hh.1,
          fun ht range' h => hserved.inside ht range' (List.mem_cons_of_mem _ h),
          fun hh range' h => hserved.aligned hh.1 range' (List.mem_cons_of_mem _ h),
          fun hh range' h => hserved.whole hh.1 range' (List.mem_cons_of_mem _ h),
          fun ht range' h => ?_, fun ht => (hserved.defined ht).imp_right fun hall range' h => ?_,
          fun hh => (hsafe hh).2⟩
        · obtain ⟨b, hb⟩ := hserved.block ht range' (List.mem_cons_of_mem _ h)
          exact hu.static.hasBlock hinv.wf hinvu.wf hlive
            (hinvu.wf.local_alive (hu.locals _ hheld)) hb
        · exact htransfer (hcached ht hall).1 range' (hall range' (List.mem_cons_of_mem _ h))
      refine (readBlocks_spec options rest (buf ++ res.2) hinvu (hu.locals _ hheld)
        ((hu.static.idOf hlt).trans hid)
        (fun hD range' h => hranges hD range' (List.mem_cons_of_mem _ h)) hserved'
        fun hh => (hsafe hh).1).mono ?_
      rintro res' t ⟨ht, hdata', hok', hquiet'⟩
      refine ⟨hu.trans ht, fun hD hres' => ?_, fun hh => ?_, ?_⟩
      · rw [hdata' hD hres', hdata hD hres, List.map_cons, List.flatten_cons, List.append_assoc]
      · by_cases hharmed : sc.Reads ∧ u.Harmed r
        · exact Or.inr ⟨hharmed.1, hharmed.2.mono ht.static⟩
        · exact hok' ⟨hh, Or.inr hharmed⟩
      · rintro (hh | hnil) hquiet
        swap
        · cases hnil
        by_cases hlast : rest = []
        · apply hquiet' (Or.inr hlast)
          rw [hlast]
          exact Or.inr fun _ h => by cases h
        rw [RangesQuiet, List.dropLast_cons_of_ne_nil hlast] at hquiet
        have hsame' : u.items = s.items ∧ u.accessIndex = s.accessIndex := by
          refine hsame (hserved.data (hserved.subset hh)) (hquiet.imp_right fun hall b hb => ?_)
          exact (hall range List.mem_cons_self).allResident hb
        refine hquiet' (Or.inl ⟨hh, Or.inl hsame'⟩) (hquiet.imp_right fun hall range' h => ?_)
        exact htransfer hsame'.1 range' (hall range' (List.mem_cons_of_mem _ h))

/-! ## The range of a request -/

section Request

variable {flags : Flags} {o n length : Nat}

theorem clampSize_eq (hlen : length < 18446744073709551616) (hwrap : o + n < 18446744073709551616) :
    clampSize length o n = min n (length - o) := by
  unfold clampSize
  rw [show (o : Int) + n = (o + n : Nat) by push_cast; ring, u64_of_lt hwrap, u64_of_lt (by omega)]
  split
  next hlong =>
    split
    next => omega
    next hin =>
      rw [show (length : Int) - o = (length - o : Nat) by omega, u64_of_lt (by omega)]
      omega
  next => omega

theorem alignedRange_eq (hn : 0 < n) (hfit : o + n ≤ length) (haddr : Addressable flags length) :
    alignedRange flags length o n = (o / flags.sliceSize * flags.sliceSize,
      min (((o + n - 1) / flags.sliceSize + 1) * flags.sliceSize - 1) (length - 1)) := by
  have hle := haddr.le
  have hlow := (div_mul_bounds o flags.sliceSize_pos).1
  have hend := haddr.slice (show o + n - 1 < length by omega)
  have hpos := Nat.mul_pos (Nat.succ_pos ((o + n - 1) / flags.sliceSize)) flags.sliceSize_pos
  unfold alignedRange
  rw [show (o : Int) + n - 1 = (o + n - 1 : Nat) by omega, sliceUpper_off2slice (by omega),
    sliceLower_off2slice (by omega), u32_of_lt (by omega), u32_of_lt (by omega)]
  dsimp only
  congr 1
  split <;> omega

/-- The aligned range is one that the blocks can answer, and contains the request. -/
theorem alignedRange_ok {value : IOBuf} (hn : 0 < n) (hfit : o + n ≤ value.length) :
    ItemRange flags value (o / flags.sliceSize * flags.sliceSize)
        (min (((o + n - 1) / flags.sliceSize + 1) * flags.sliceSize - 1) (value.length - 1)) ∧
      o / flags.sliceSize * flags.sliceSize ≤ o ∧
      o + n ≤ min (((o + n - 1) / flags.sliceSize + 1) * flags.sliceSize - 1)
        (value.length - 1) + 1 := by
  have hss := flags.sliceSize_pos
  have hlow := div_mul_bounds o hss
  have hhigh := div_mul_bounds (o + n - 1) hss
  refine ⟨⟨Nat.dvd_mul_left .., by omega, by omega, ?_⟩, hlow.1, by omega⟩
  rcases Nat.le_total (((o + n - 1) / flags.sliceSize + 1) * flags.sliceSize - 1)
    (value.length - 1) with h | h
  · rw [Nat.min_eq_left h, Nat.sub_add_cancel (by omega)]
    exact Or.inl (Nat.dvd_mul_left ..)
  · rw [Nat.min_eq_right h]
    exact Or.inr (by omega)

/-- The pieces in which a request is read. -/
theorem requestRanges_ok {value : IOBuf} {size : Nat} (hgeo : Geometry flags)
    (haddr : Addressable flags value.length) (hwrap : o + size < 18446744073709551616)
    (hsize : clampSize value.length o size ≠ 0) :
    ∀ range ∈ blockRanges flags
        (alignedRange flags value.length o (clampSize value.length o size)).1
        (alignedRange flags value.length o (clampSize value.length o size)).2,
      RangeOk flags value range := by
  have hle := haddr.le
  rw [clampSize_eq (by omega) hwrap] at hsize ⊢
  have hpos : 0 < min size (value.length - o) := Nat.pos_of_ne_zero hsize
  have hfit : o + min size (value.length - o) ≤ value.length := by omega
  rw [alignedRange_eq hpos hfit haddr]
  have hitem := (@alignedRange_ok flags o _ value hpos hfit).1
  apply rangesOk hgeo hitem
  have := hitem.lt
  omega

end Request

/-- The block of every byte of the range holds its slice, in the sense of `K`. -/
def Readable (flags : Flags) (K : Nat → BlockItem → Prop) (s : State) (r : ItemRef)
    (lo hi : Nat) : Prop :=
  ∀ p, lo ≤ p → p < hi → ∃ b, s.HasBlock r (p / flags.blockSize) b ∧
    K (p % flags.blockSize / flags.sliceSize) b

/-- Every slice of the range has the property, given by block and slice. -/
def Throughout (flags : Flags) (P : Nat → Nat → Prop) (lo hi : Nat) : Prop :=
  ∀ p, lo ≤ p → p < hi → P (p / flags.blockSize) (p % flags.blockSize / flags.sliceSize)

/-- Nothing is promoted before the last block of the range is read: the blocks before it have
their part of the range in memory. -/
def ReadsQuietly (rt : Runtime) (options : Option ReadOptions) (s : State) (r : ItemRef)
    (lo hi : Nat) : Prop :=
  rt.promotionPolicy.Refuses options ∨ Throughout rt.flags (fun i k =>
    i < (hi - 1) / rt.flags.blockSize → ∃ b, s.HasBlock r i b ∧ b.Cached k) lo hi

/-- Positions of one slice are in one block. -/
theorem same_slice {flags : Flags} (hgeo : Geometry flags) {p q : Nat}
    (h : p / flags.sliceSize = q / flags.sliceSize) :
    p / flags.blockSize = q / flags.blockSize ∧
      p % flags.blockSize / flags.sliceSize = q % flags.blockSize / flags.sliceSize := by
  obtain ⟨m, hm⟩ := hgeo.slice_dvd
  rw [hm, ← Nat.div_div_eq_div_mul, ← Nat.div_div_eq_div_mul, Nat.mod_mul_right_div_self,
    Nat.mod_mul_right_div_self, h]
  exact ⟨rfl, rfl⟩

/-- The slices of an aligned range are those of the bytes that were asked for. -/
theorem Throughout.ranges {flags : Flags} {P : Nat → Nat → Prop} (hgeo : Geometry flags)
    {o n length upper : Nat}
    (hn : 0 < n) (hupper : upper = min (((o + n - 1) / flags.sliceSize + 1) * flags.sliceSize - 1)
      (length - 1)) (hle : o / flags.sliceSize * flags.sliceSize ≤ upper)
    (hlt : upper < 4294967296) (h : Throughout flags P o (o + n)) :
    ∀ range ∈ blockRanges flags (o / flags.sliceSize * flags.sliceSize) upper,
      ∀ k, range.offset.toNat ≤ k * flags.sliceSize →
        k * flags.sliceSize < range.offset.toNat + range.size → P range.blockIndex k := by
  have hss := flags.sliceSize_pos
  have hbs := flags.blockSize_pos
  rw [blockRanges_eq hle hlt]
  intro range hrange
  obtain ⟨i, hi, rfl⟩ := List.mem_map.mp hrange
  rw [List.mem_range'_1] at hi
  obtain ⟨hlo, hhi, _⟩ := rangeBound_of_mem hle hi.1 (by omega)
  intro k hlow hhigh
  dsimp only at hlow hhigh ⊢
  rw [Int.toNat_natCast, hlo] at hlow hhigh
  rw [hhi] at hhigh
  have hstep : (i + 1) * flags.blockSize = i * flags.blockSize + flags.blockSize :=
    Nat.succ_mul i flags.blockSize
  -- the first byte of the slice, and one of its bytes that was asked for
  obtain ⟨m, hm⟩ := hgeo.slice_dvd
  have hfirst : i * flags.blockSize + k * flags.sliceSize = (i * m + k) * flags.sliceSize := by
    rw [hm]
    ring
  have hblock : (i * flags.blockSize + k * flags.sliceSize) / flags.blockSize = i := by
    rw [Nat.mul_comm i, Nat.mul_add_div hbs, Nat.div_eq_of_lt (by omega), Nat.add_zero]
  have hslice : (i * flags.blockSize + k * flags.sliceSize) % flags.blockSize / flags.sliceSize =
      k := by
    rw [Nat.mul_comm i, Nat.mul_add_mod, Nat.mod_eq_of_lt (by omega), Nat.mul_div_cancel _ hss]
  have hpick : ∃ p, o ≤ p ∧ p < o + n ∧
      p / flags.sliceSize = (i * flags.blockSize + k * flags.sliceSize) / flags.sliceSize := by
    rcases Nat.le_total o (i * flags.blockSize + k * flags.sliceSize) with hafter | hbefore
    · refine ⟨_, hafter, ?_, rfl⟩
      have hpos : 0 < ((o + n - 1) / flags.sliceSize + 1) * flags.sliceSize :=
        Nat.mul_pos (Nat.succ_pos _) hss
      have hin : (i * m + k) * flags.sliceSize <
          ((o + n - 1) / flags.sliceSize + 1) * flags.sliceSize := by omega
      have := (Nat.le_div_iff_mul_le hss).mp
        (Nat.lt_succ_iff.mp (Nat.lt_of_mul_lt_mul_right hin))
      omega
    · refine ⟨o, Nat.le_refl _, by omega, Nat.le_antisymm ?_ (Nat.div_le_div_right hbefore)⟩
      rw [Nat.le_div_iff_mul_le hss]
      omega
  obtain ⟨p, hop, hpn, hsame⟩ := hpick
  obtain ⟨hblock', hslice'⟩ := same_slice hgeo hsame
  rw [hblock] at hblock'
  rw [hslice] at hslice'
  have := h p hop hpn
  rwa [hblock', hslice'] at this

/-- The blocks before the last one. -/
theorem blockRanges_dropLast {flags : Flags} (hgeo : Geometry flags) {o n length upper : Nat}
    (hn : 0 < n) (hfit : o + n ≤ length)
    (hupper : upper = min (((o + n - 1) / flags.sliceSize + 1) * flags.sliceSize - 1)
      (length - 1)) (hle : o / flags.sliceSize * flags.sliceSize ≤ upper)
    (hlt : upper < 4294967296) {range : BlockRange}
    (h : range ∈ (blockRanges flags (o / flags.sliceSize * flags.sliceSize) upper).dropLast) :
    range.blockIndex < (o + n - 1) / flags.blockSize := by
  have hss := flags.sliceSize_pos
  have hhigh := div_mul_bounds (o + n - 1) hss
  have hlast : upper / flags.blockSize = (o + n - 1) / flags.blockSize := by
    refine (same_slice hgeo ?_).1
    refine Nat.le_antisymm ?_ (Nat.div_le_div_right (by omega))
    rw [← Nat.lt_succ_iff, Nat.div_lt_iff_lt_mul hss, Nat.succ_eq_add_one]
    omega
  have hcount : upper / flags.blockSize + 1 - o / flags.sliceSize * flags.sliceSize / flags.blockSize =
      upper / flags.blockSize - o / flags.sliceSize * flags.sliceSize / flags.blockSize + 1 := by
    have := Nat.div_le_div_right (c := flags.blockSize) hle
    omega
  rw [blockRanges_eq hle hlt, ← List.map_dropLast, hcount, List.range'_concat,
    List.dropLast_concat] at h
  obtain ⟨i, hi, rfl⟩ := List.mem_map.mp h
  rw [List.mem_range'_1] at hi
  dsimp only
  omega

/-! ## The whole read -/

/-- A request whose end can be computed. -/
theorem readRange_spec {T H : Prop} (hinv : Inv sc ⟨s, g⟩) (hheld : .item r ∈ s.locals)
    (hid : s.idOf rt.toPlatform r = id) (options : Option ReadOptions) {o size : Nat}
    (hwrap : o + size < 18446744073709551616)
    (haddr : sc.D → Addressable rt.flags (sc.val r).length) (hdata : T → sc.D) (hsub : H → T)
    (hwhole : H → Throughout rt.flags (sc.whole r) o (o + min size ((sc.val r).length - o)))
    (hdefined : T → sc.T ∨
      Readable rt.flags BlockItem.Cached s r o (o + min size ((sc.val r).length - o)))
    (hfind : H → s.find id = some r)
    (hfull : H →
      (sc.Reads ∧ Readable rt.flags BlockItem.Holds s r o (o + min size ((sc.val r).length - o))) ∨
        Readable rt.flags BlockItem.Cached s r o (o + min size ((sc.val r).length - o))) :
    Spec T (readCacheItem rt id r o size options) (fun res t => Ran sc Action.InRead s g t g ∧
      (sc.D → res.1.ok = true → res.2 = ((sc.val r).drop o).take size) ∧
      (H → res.1.ok = true ∨ sc.Reads ∧ t.Harmed r) ∧
      (H → ReadsQuietly rt options s r o (o + min size ((sc.val r).length - o)) →
        res.1.ok = true)) s := by
  have hstart : Ran sc Action.InRead s g s g := .refl trivial
  have hlive := hinv.wf.local_alive hheld
  have hgeo : sc.D → Geometry rt.flags := fun hD => (sc.data hD).toGeometry
  have hsize : sc.D → (s.items r).size = (sc.val r).length := fun hD =>
    (hinv.content hD r hlive).size
  have hclamp : sc.D → clampSize (s.items r).size o size = min size ((sc.val r).length - o) := by
    intro hD
    have := (haddr hD).le
    rw [hsize hD, clampSize_eq (by omega) hwrap]
  unfold readCacheItem
  rw [spec_bind, spec_read]
  dsimp only
  refine spec_ite (fun hzero => ?_) fun hne => ?_
  · rw [spec_pure]
    refine ⟨hstart, fun hD _ => ?_, fun _ => Or.inl rfl, fun _ _ => rfl⟩
    rw [hclamp hD] at hzero
    refine (List.eq_nil_of_length_eq_zero ?_).symm
    rw [List.length_take, List.length_drop]
    exact hzero
  generalize hn : clampSize (s.items r).size o size = n at hne ⊢
  have hpos : 0 < n := Nat.pos_of_ne_zero hne
  have hfit : sc.D → o + n ≤ (sc.val r).length := by
    intro hD
    have := hclamp hD
    omega
  have hrange : sc.D → alignedRange rt.flags (s.items r).size o n =
      (o / rt.flags.sliceSize * rt.flags.sliceSize,
        min (((o + n - 1) / rt.flags.sliceSize + 1) * rt.flags.sliceSize - 1)
          ((sc.val r).length - 1)) := fun hD => by
    rw [hsize hD, alignedRange_eq hpos (hfit hD) (haddr hD)]
  generalize halign : alignedRange rt.flags (s.items r).size o n = range at hrange ⊢
  obtain ⟨lower, upper⟩ := range
  have hitem : sc.D → ItemRange rt.flags (sc.val r) lower upper ∧ lower ≤ o ∧ o + n ≤ upper + 1 :=
    fun hD => by
      obtain ⟨rfl, rfl⟩ := Prod.mk.inj (hrange hD)
      exact alignedRange_ok hpos (hfit hD)
  have hupper : sc.D → upper < 4294967296 := fun hD => by
    have := (hitem hD).1.lt
    have := (haddr hD).le
    omega
  have hblock : sc.D → ∀ i, i ≤ upper / rt.flags.blockSize → i * rt.flags.blockSize <
      (sc.val r).length := fun hD i hi => by
    have := (Nat.le_div_iff_mul_le rt.flags.blockSize_pos).mp hi
    exact Nat.lt_of_le_of_lt this (hitem hD).1.lt
  -- what is at hand, by blocks
  have hranges : ∀ {P : Nat → Nat → Prop}, sc.D →
      Throughout rt.flags P o (o + min size ((sc.val r).length - o)) →
        ∀ range ∈ blockRanges rt.flags lower upper, ∀ k,
          range.offset.toNat ≤ k * rt.flags.sliceSize →
          k * rt.flags.sliceSize < range.offset.toNat + range.size → P range.blockIndex k := by
    intro P hD hall
    rw [← hclamp hD, hn] at hall
    have hle := (hitem hD).1.le
    obtain ⟨rfl, hup⟩ := Prod.mk.inj (hrange hD)
    exact hall.ranges (hgeo hD) hpos hup hle (hupper hD)
  have hholds : ∀ {K : Nat → BlockItem → Prop}, sc.D →
      Readable rt.flags K s r o (o + min size ((sc.val r).length - o)) →
        ∀ range ∈ blockRanges rt.flags lower upper, HoldsRange rt.flags K s r range :=
    fun {K} hD hall => hranges (P := fun i k => ∃ b, s.HasBlock r i b ∧ K k b) hD hall
  have hok : sc.D → ∀ range ∈ blockRanges rt.flags lower upper,
      RangeOk rt.flags (sc.val r) range := fun hD =>
    rangesOk (hgeo hD) (hitem hD).1 (hupper hD)
  have hserved : RangesServed sc T H s r (blockRanges rt.flags lower upper) := by
    refine ⟨hdata, hsub, fun ht range h => (hok (hdata ht) range h).not_void (hgeo (hdata ht)),
      fun hh => hok (hdata (hsub hh)), fun hh => hranges (hdata (hsub hh)) (hwhole hh),
      fun ht range h => ?_, fun ht => (hdefined ht).imp_right (hholds (hdata ht)), fun hh => ?_⟩
    · have hD := hdata ht
      rw [blockRanges_eq (hitem hD).1.le (hupper hD)] at h
      obtain ⟨i, hi, rfl⟩ := List.mem_map.mp h
      rw [List.mem_range'_1] at hi
      refine ⟨_, List.getElem?_eq_getElem ?_⟩
      rw [hinv.wf.length r hlive, CacheItem.blockCount, hsize hD, lt_blockCountOf]
      exact hblock hD i (by omega)
    · have hD := hdata (hsub hh)
      exact (hfull hh).imp (And.imp_right (hholds hD)) (hholds hD)
  rw [spec_bind]
  refine (readBlocks_spec options _ [] hinv hheld hid (fun hD range h => (hok hD range h).part)
    hserved hfind).mono ?_
  rintro res t ⟨ht, hbytes, hres', hquiet⟩
  have hquiet' : H → ReadsQuietly rt options s r o (o + min size ((sc.val r).length - o)) →
      res.1.ok = true := by
    intro hh hreads
    have hD := hdata (hsub hh)
    refine hquiet (Or.inl hh) (hreads.imp_right fun hall range h k hlow hhigh => ?_)
    refine hranges hD hall range (List.dropLast_subset _ h) k hlow hhigh ?_
    rw [← hclamp hD, hn]
    have hle := (hitem hD).1.le
    obtain ⟨rfl, hup⟩ := Prod.mk.inj (hrange hD)
    exact blockRanges_dropLast (hgeo hD) hpos (hfit hD) hup hle (hupper hD) h
  refine spec_ite (fun hres => ?_) fun hres => ?_
  · rw [spec_bind]
    refine spec_require (fun hT => ?_) fun _ => ?_
    · have hD := hdata hT
      have hlast := lt_blockCountOf.mpr (hblock hD (upper / rt.flags.blockSize) (Nat.le_refl _))
      have hcount := (hinv.content hD r hlive).le
      rw [u32_off2block (hupper hD)]
      omega
    · rw [spec_pure]
      refine ⟨ht, fun hD _ => ?_, fun _ => Or.inl rfl, fun _ _ => rfl⟩
      obtain ⟨hitem, hlow, hhigh⟩ := hitem hD
      have hle := (haddr hD).le
      have := hfit hD
      dsimp only
      rw [hbytes hD hres, List.nil_append, hitem.pieces hle,
        show (o : Int) - lower = (o - lower : Nat) by omega, u64_of_lt (by omega), List.drop_take,
        List.drop_drop, List.take_take, show lower + (o - lower) = o by omega,
        Nat.min_eq_left (by omega), ← hn, hclamp hD]
      rw [← List.length_drop, ← List.take_eq_take_min]
  · rw [spec_pure]
    exact ⟨ht, fun _ h => absurd h hres, hres', hquiet'⟩

theorem alignedRange_lt {flags : Flags} {length : Nat} (hpos : 0 < length) (offset : Int)
    (size : Nat) :
    (alignedRange flags length offset size).1 < 4294967296 ∧
      (alignedRange flags length offset size).2 < 4294967296 ∧
      (alignedRange flags length offset size).2 < length := by
  have hlower : sliceLower flags (off2slice flags offset) < 4294967296 := u32_lt _
  have hupper : sliceUpper flags (off2slice flags (offset + size - 1)) < 4294967296 := u32_lt _
  unfold alignedRange
  dsimp only
  split <;> omega

/-- Any request: where no slice has to be held up to its end the cache stays as it should be. -/
theorem readAny_spec (hinv : Inv sc ⟨s, g⟩) (hheld : .item r ∈ s.locals)
    (hid : s.idOf rt.toPlatform r = id) (options : Option ReadOptions) (offset : Int) (size : Nat)
    (hwhole : sc.D → ∀ i k, ¬ sc.whole r i k) :
    Spec False (readCacheItem rt id r offset size options) (fun _ t =>
      Ran sc Action.InRead s g t g) s := by
  have hlive := hinv.wf.local_alive hheld
  unfold readCacheItem
  rw [spec_bind, spec_read]
  dsimp only
  refine spec_ite (fun _ => .refl trivial) fun _ => ?_
  rw [spec_bind]
  refine (readBlocks_spec (H := False) options _ [] hinv hheld hid (fun hD => ?_)
    ⟨False.elim, False.elim, False.elim, False.elim, False.elim, False.elim, False.elim,
      False.elim⟩ False.elim).mono ?_
  · have hitem := hinv.content hD r hlive
    have hpos : 0 < (s.items r).size := hitem.size ▸ hitem.pos
    obtain ⟨hlower, hupper, hlt⟩ := @alignedRange_lt rt.flags _ hpos offset
      (clampSize (s.items r).size offset size)
    exact rangesPart (sc.data hD).toGeometry (hwhole hD) hlower hupper (hitem.size ▸ hlt)
  rintro res t ⟨ht, _⟩
  refine spec_ite (fun _ => ?_) fun _ => ht
  rw [spec_bind]
  exact spec_require False.elim fun _ => ht

/-- `_read_cache_item`: what it returns is the range that was asked for, as far as the object
goes; it does return when all of that is at hand, unless the read itself gives up something of
the item. -/
theorem readCacheItem_spec {T H : Prop} (hinv : Inv sc ⟨s, g⟩) (hheld : .item r ∈ s.locals)
    (hid : s.idOf rt.toPlatform r = id) (options : Option ReadOptions) {offset : Int} {o size : Nat}
    (hoffset : sc.D → offset = o ∧ o + size < 18446744073709551616 ∨
      ¬ T ∧ ∀ i k, ¬ sc.whole r i k)
    (haddr : sc.D → Addressable rt.flags (sc.val r).length) (hdata : T → sc.D) (hsub : H → T)
    (hwhole : H → Throughout rt.flags (sc.whole r) o (o + min size ((sc.val r).length - o)))
    (hdefined : T → sc.T ∨
      Readable rt.flags BlockItem.Cached s r o (o + min size ((sc.val r).length - o)))
    (hfind : H → s.find id = some r)
    (hfull : H →
      (sc.Reads ∧ Readable rt.flags BlockItem.Holds s r o (o + min size ((sc.val r).length - o))) ∨
        Readable rt.flags BlockItem.Cached s r o (o + min size ((sc.val r).length - o))) :
    Spec T (readCacheItem rt id r offset size options) (fun res t =>
      Ran sc Action.InRead s g t g ∧
      (sc.D → offset = o ∧ o + size < 18446744073709551616 → res.1.ok = true →
        res.2 = ((sc.val r).drop o).take size) ∧
      (H → res.1.ok = true ∨ sc.Reads ∧ t.Harmed r) ∧
      (H → ReadsQuietly rt options s r o (o + min size ((sc.val r).length - o)) →
        res.1.ok = true)) s := by
  by_cases hin : sc.D ∧ offset = o ∧ o + size < 18446744073709551616
  · obtain ⟨_, rfl, hwrap⟩ := hin
    refine (readRange_spec hinv hheld hid options hwrap haddr hdata hsub hwhole hdefined hfind
      hfull).mono ?_
    rintro res t ⟨ht, hbytes, hok⟩
    exact ⟨ht, fun hD _ => hbytes hD, hok⟩
  -- nothing is said of the bytes
  have hvoid : sc.D → ¬ T ∧ ∀ i k, ¬ sc.whole r i k := fun hD =>
    (hoffset hD).resolve_left fun h => hin ⟨hD, h⟩
  have hT : T → False := fun ht => (hvoid (hdata ht)).1 ht
  refine ((readAny_spec hinv hheld hid options offset size fun hD => (hvoid hD).2).weaken
    hT).mono ?_
  intro res t ht
  exact ⟨ht, fun hD h => absurd ⟨hD, h⟩ hin, fun hh => (hT (hsub hh)).elim,
    fun hh => (hT (hsub hh)).elim⟩

end StarCacheImpl

end StarCache
