import StarCache.Properties.Reading

/-!
# Offsets and sizes

The range of a request is right as long as its end is a `size_t` and the last slice of the
object ends where 32 bits reach. Beyond that a request is answered with too few bytes and
status OK.
-/

namespace StarCache

open Prog MachineInt StarCacheImpl

section Ranges

variable {rt : Runtime} {options : CacheOptions} {history : List Record} {s : State}
  {cacheKey : CacheKey} {r : ItemRef}

/-- All bytes of the object are in memory. -/
structure State.Loaded (flags : Flags) (s : State) (r : ItemRef) : Prop where
  cached : Readable flags BlockItem.Cached s r 0 (s.items r).size
  whole : s.WholeIn flags r 0 (s.items r).size

/-- Reads of an object that is in memory. -/
theorem cached_read (hdata : DataHyp rt.toPlatform) (hrun : Run rt options history s)
    (hstored : ∀ record ∈ history, record.call.Stored rt.flags)
    (hlookup : lookupItem rt s cacheKey = some r) (hloaded : s.Loaded rt.flags r) :
    ∃ value, latestValue cacheKey history = some value ∧ (s.items r).size = value.length ∧
      Addressable rt.flags value.length ∧
      ∀ (off size : Nat) readOptions, off + size < 18446744073709551616 →
        ∃ reply t, (Call.read cacheKey off size readOptions).run rt s = some (reply, t) ∧
          reply.status.ok = true ∧ reply.buf = (value.drop off).take size := by
  obtain ⟨hfind, hkey, _⟩ := lookupItem_iff.mp hlookup
  obtain ⟨val, hsound⟩ := (hrun.runOf _ hstored).sound_bytes hdata fun _ _ _ h => h
  -- what is there up to its end now stays so
  have hinv : Inv { Scenario.bytes hdata with
      val, whole := fun r i k => s.Whole rt.flags r i k } ⟨s.reset, .all⟩ :=
    hsound.inv.congr id id (Nat.zero_le _) (fun _ _ => rfl) fun _ _ _ _ _ h => Or.inr h
  have hitem := hinv.content trivial r (hinv.wf.indexed_live hfind)
  have hsize : (s.items r).size = (val r).length := hitem.size
  have haddr := hsound.addressable trivial r
  refine ⟨val r, hkey ▸ hsound.latest _ r hfind, hsize, haddr, fun off size readOptions hlt => ?_⟩
  have hcached : Readable rt.flags BlockItem.Cached s r off
      (off + min size ((val r).length - off)) := fun p hlow hhigh =>
    hloaded.cached p (Nat.zero_le _) (by omega)
  have hwhole : s.WholeIn rt.flags r off (off + min size ((val r).length - off)) :=
    fun p hlow hhigh => hloaded.whole p (Nat.zero_le _) (by omega)
  obtain ⟨reply, t, hcall, _, hbytes, hok, _⟩ := (read_spec (T := True) (H := True) hinv hlookup
    readOptions (fun _ => hlt) (fun _ => haddr) (fun _ => trivial) id (fun _ => hwhole)
    (fun _ => Or.inr hcached) fun _ => Or.inr hcached).defined trivial
  have hok := (hok trivial).resolve_right fun h => h.1.1
  exact ⟨reply, t, hcall, hok, hbytes trivial hok⟩

/-- A range whose end is a `size_t` is cut to the object. -/
theorem clamped_read (hdata : DataHyp rt.toPlatform) (hrun : Run rt options history s)
    (hsmall : ∀ record ∈ history, record.call.Bounded 2147483648)
    (hlookup : lookupItem rt s cacheKey = some r) (hloaded : s.Loaded rt.flags r) :
    ∃ value, latestValue cacheKey history = some value ∧
      ∀ (off size : Nat) readOptions, off + size < 18446744073709551616 →
        ∃ reply t, (Call.read cacheKey off size readOptions).run rt s = some (reply, t) ∧
          reply.status.ok = true ∧ reply.buf = (value.drop off).take size := by
  obtain ⟨value, hvalue, _, _, hreads⟩ := cached_read hdata hrun (fun record hrecord =>
    Call.stored hdata.toGeometry (hsmall record hrecord)) hlookup hloaded
  exact ⟨value, hvalue, hreads⟩

/-- The blocks of item `r` that are in memory as a whole. -/
theorem cached_of_slices {flags : Flags} {n : Nat}
    (h : ∀ p < n, ((s.items r).blocks[p / flags.blockSize]?.map fun b =>
      b.slices[p % flags.blockSize / flags.sliceSize]?.join.isSome) = some true) :
    Readable flags BlockItem.Cached s r 0 n := by
  intro p _ hp
  obtain ⟨b, hb, hslice⟩ := Option.map_eq_some_iff.mp (h p hp)
  obtain ⟨g, hg⟩ := Option.isSome_iff_exists.mp hslice
  exact ⟨b, hb, g, Option.join_eq_some_iff.mp hg⟩

/-- Segments of whole blocks. -/
theorem wholeIn_of_blocks {flags : Flags} {n : Nat}
    (h : ∀ i < n, ∀ x ∈ ((s.items r).blocks[i]?.map BlockItem.slices).getD [], ∀ g, x = some g →
      (s.items r).blockSize flags i ≤ (s.segments g).offset + (s.segments g).size) {hi : Nat}
    (hhi : hi ≤ n * flags.blockSize) : s.WholeIn flags r 0 hi := by
  intro p _ hp b block x hb hmem hx
  have hlt : p / flags.blockSize < n := Nat.div_lt_of_lt_mul (by rw [Nat.mul_comm]; omega)
  have hsome : (s.items r).blocks[p / flags.blockSize]? = some b := hb
  refine Or.inl (h _ hlt (some x) ?_ x rfl)
  rw [hsome, Option.map_some, Option.getD_some]
  unfold BlockItem.slices
  rw [hmem]
  exact List.mem_of_getElem? hx

theorem State.Loaded.of_blocks {flags : Flags} {n size : Nat} (hsize : (s.items r).size = size)
    (hcached : ∀ p < size, ((s.items r).blocks[p / flags.blockSize]?.map fun b =>
      b.slices[p % flags.blockSize / flags.sliceSize]?.join.isSome) = some true)
    (hwhole : ∀ i < n, ∀ x ∈ ((s.items r).blocks[i]?.map BlockItem.slices).getD [], ∀ g ∈ x,
      (s.items r).blockSize flags i ≤ (s.segments g).offset + (s.segments g).size)
    (hle : size ≤ n * flags.blockSize) : s.Loaded flags r :=
  ⟨hsize ▸ cached_of_slices hcached,
    wholeIn_of_blocks (fun i hi x hx g hg => hwhole i hi x hx g hg) (hsize ▸ hle)⟩

/-- The tail of an object of two blocks. -/
theorem clamped_read_small : ∃ history s reply t,
    Run (.simple .small .reliable) (.oneDir 100 8) history s ∧
      (Call.read [1] 3 1000 none).run (.simple .small .reliable) s = some (reply, t) ∧
      reply.buf = [4, 5, 6, 7] := by
  obtain ⟨history, s, hrun, hp⟩ := Run.of_calls (.simple .small .reliable) (.oneDir 100 8)
    [.set [1] [1, 2, 3, 4, 5, 6, 7] none, .read [1] 1 18446744073709551615 none]
    (fun history s => decide (lookupItem (.simple .small .reliable) s [1] = some 0 ∧
      latestValue [1] history = some [1, 2, 3, 4, 5, 6, 7] ∧
      (∀ record ∈ history, record.call.Bounded 2147483648) ∧ (s.items 0).size = 7 ∧
      (∀ p < 7, ((s.items 0).blocks[p / 4]?.map fun (b : BlockItem) =>
        b.slices[p % 4 / 2]?.join.isSome) = some true) ∧
      ∀ i < 2, ∀ x ∈ ((s.items 0).blocks[i]?.map BlockItem.slices).getD [], ∀ g ∈ x,
        (s.items 0).blockSize .small i ≤ (s.segments g).offset + (s.segments g).size))
    (by decide +kernel)
  obtain ⟨hlookup, hlatest, hsmall, hsize, hcached, hwhole⟩ := of_decide_eq_true hp
  obtain ⟨value, hvalue, hreads⟩ := clamped_read (dataHyp_reliable geometry_small (.inl rfl)) hrun
    hsmall hlookup (.of_blocks hsize hcached hwhole (by decide))
  obtain rfl : value = [1, 2, 3, 4, 5, 6, 7] := Option.some.inj (hvalue.symm.trans hlatest)
  obtain ⟨reply, t, hcall, _, hbuf⟩ := hreads 3 1000 none (by decide)
  exact ⟨history, s, reply, t, hrun, hcall, hbuf⟩

/-- A request to the end of the object, with the greatest size there is. -/
theorem clamped_read_wraps : ∃ history s reply t,
    Run (.simple .small .reliable) (.oneDir 100 8) history s ∧
      lookupItem (.simple .small .reliable) s [1] = some 0 ∧
      latestValue [1] history = some [1, 2, 3, 4, 5, 6, 7, 8] ∧ s.Loaded Flags.small 0 ∧
      (Call.read [1] 5 18446744073709551615 none).run (.simple .small .reliable) s =
        some (reply, t) ∧ reply.status.ok = true ∧ reply.buf = [] := by
  obtain ⟨history, s, hrun, hp⟩ := Run.of_calls (.simple .small .reliable) (.oneDir 100 8)
    [.set [1] [1, 2, 3, 4, 5, 6, 7, 8] none]
    (fun history s => decide (lookupItem (.simple .small .reliable) s [1] = some 0 ∧
      latestValue [1] history = some [1, 2, 3, 4, 5, 6, 7, 8] ∧ (s.items 0).size = 8 ∧
      (∀ p < 8, ((s.items 0).blocks[p / 4]?.map fun (b : BlockItem) =>
        b.slices[p % 4 / 2]?.join.isSome) = some true) ∧
      (∀ i < 2, ∀ x ∈ ((s.items 0).blocks[i]?.map BlockItem.slices).getD [], ∀ g ∈ x,
        (s.items 0).blockSize .small i ≤ (s.segments g).offset + (s.segments g).size) ∧
      ((Call.read [1] 5 18446744073709551615 none).run (.simple .small .reliable) s).any
        (fun x => decide (x.1.status.ok = true ∧ x.1.buf = [])) = true))
    (by decide +kernel)
  obtain ⟨hlookup, hlatest, hsize, hcached, hwhole, hread⟩ := of_decide_eq_true hp
  obtain ⟨x, hx, hread⟩ := (Option.any_eq_true _ _).mp hread
  exact ⟨history, s, x.1, x.2, hrun, hlookup, hlatest, .of_blocks hsize hcached hwhole (by decide),
    hx, of_decide_eq_true hread⟩

/-! ## Large objects -/

/-- The helpers place every offset of an object of `n` bytes exactly if the object is addressable,
and then an object of that size is read exactly. -/
theorem large_offsets (hdata : DataHyp rt.toPlatform) {n : Nat} (hpos : 0 < n) :
    ((∀ o < n, o < 9223372036854775808 → Addressed rt.flags o) ↔ Addressable rt.flags n) ∧
    ∀ {options history s cacheKey r}, Run rt options history s →
      (∀ record ∈ history, record.call.Stored rt.flags) → lookupItem rt s cacheKey = some r →
      (s.items r).size = n → s.Loaded rt.flags r →
        ∃ value, latestValue cacheKey history = some value ∧ value.length = n ∧
          (∀ readOptions, ∃ reply t,
            (Call.get cacheKey readOptions).run rt s = some (reply, t) ∧
              reply.status.ok = true ∧ reply.buf = value) ∧
          ∀ (off size : Nat) readOptions, off + size < 18446744073709551616 →
            ∃ reply t, (Call.read cacheKey off size readOptions).run rt s = some (reply, t) ∧
              reply.status.ok = true ∧ reply.buf = (value.drop off).take size := by
  refine ⟨addressed_iff ?_ hpos,
    fun {options history s cacheKey r} hrun hstored hlookup hsize hloaded => ?_⟩
  · have := hdata.toGeometry.slice_le
    have := hdata.toGeometry.block_le
    omega
  obtain ⟨value, hvalue, hlength, haddr, hreads⟩ :=
    cached_read hdata hrun hstored hlookup hloaded
  refine ⟨value, hvalue, hlength.symm.trans hsize, fun readOptions => ?_, hreads⟩
  have hle : value.length ≤ 4294967296 := haddr.le
  obtain ⟨reply, t, hcall, hok, hbuf⟩ := hreads 0 value.length readOptions (by omega)
  refine ⟨reply, t, ?_, hok, by simpa using hbuf⟩
  rw [get_eq_read hlookup, hlength]
  exact hcall

/-- Objects of one byte short of 2^32 bytes. -/
theorem large_offsets_fit :
    Addressable Flags.small 4294967295 ∧ ∀ o < 4294967295, Addressed Flags.small o := by
  have hdata : DataHyp (Runtime.simple .small .reliable).toPlatform :=
    dataHyp_reliable geometry_small (.inl rfl)
  have hfits : Addressable Flags.small 4294967295 := by decide +kernel
  have hplaced := (large_offsets hdata (by decide)).1.mpr hfits
  exact ⟨hfits, fun o ho => hplaced o ho (by omega)⟩

/-- One byte more than 2^32, with the flags as they are set by default: the last byte is looked
for in the first slice of the object. -/
theorem large_offsets_wrap : ¬ (∀ o < 4294967297, o < 9223372036854775808 →
      Addressed Flags.default o) ∧
    alignedRange Flags.default 4294967297 (4294967296 : Nat) 1 = (0, 65535) := by
  constructor
  · intro h
    exact absurd (h 4294967296 (by decide) (by decide)) (by decide +kernel)
  · decide +kernel

end Ranges

end StarCache
