import StarCache.Refinement.Write
import StarCache.Sharing.Reading

/-!
# The public operations on shared objects

A set fills the blocks of an item that nobody else sees, and the index gets the item when all of
them are filled. What a successful read returns is that range of the object that it found in the
index.
-/

namespace StarCache

namespace Sharing

open Discipline Pool Function Shared MachineInt DiskCache StarCacheImpl

variable {su : Setup} {V : Objects} {t : Nat} {h : Held} {F : Knowledge} {r : ItemRef}
  {cacheKey : CacheKey} {value : IOBuf} {id : CacheId}

/-! ## Writing blocks -/

theorem blockBuffer_runs (hF : Lasting su.flags V F) {buf : IOBuf} :
    Runs su.flags V t h F (blockBuffer su buf) (fun _ => h) fun a tr s => F tr s ∧
      ∀ sbuf, a = some sbuf → ∃ pad, sbuf = buf ++ pad ∧ (pad = [] ∨
        su.flags.enableOsPageCache = false ∧
          (buf ++ pad).length = roundUp buf.length su.flags.ioAlignUnitSize) := by
  unfold blockBuffer
  split
  next =>
    refine runs_pure rfl fun _ _ _ hP => ⟨hP, ?_⟩
    rintro sbuf ⟨⟩
    exact ⟨[], (List.append_nil buf).symm, Or.inl rfl⟩
  next hcache =>
    refine Runs.bind (ask_runs hF) fun x => ?_
    cases x with
    | none => exact runs_pure rfl fun _ _ _ hP => ⟨hP, fun _ h => nomatch h⟩
    | some fresh =>
        refine runs_pure rfl fun _ _ _ hP => ⟨hP, ?_⟩
        rintro sbuf ⟨⟩
        have := BlockFile.roundUp_ge buf.length _ su.flags.ioAlignUnitSize_pos
        refine ⟨_, rfl, Or.inr ⟨Bool.not_eq_true _ ▸ hcache, ?_⟩⟩
        rw [List.length_append, List.length_map, List.length_range]
        omega

/-- What a block that has been written leaves behind. -/
def Stored (flags : Flags) (r : ItemRef) (i : Nat) (F : Knowledge) (st : Status) : Knowledge :=
  fun tr s => F tr s ∧ (st.ok = true → WholeOf flags r i tr s)

theorem lasting_stored {flags : Flags} {i : Nat} {st : Status} (hF : Lasting flags V F) :
    Lasting flags V (Stored flags r i F st) := hF.and (persistent_all fun _ => lasting_wholeOf)

theorem writeMemBlock_runs (hF : Lasting su.flags V F) (hflags : Sized su.flags)
    (hfree : h.Free) (hr : 0 < h.items r) (hitem : Gets su.flags V F (IsItem r cacheKey value))
    {key : BlockKey} (hi : key.blockIndex < blockCountOf su.flags value.length)
    (hpos : 0 < (blockPart su.flags value key.blockIndex).length) :
    Runs su.flags V t h F (writeMemBlock su r key (blockPart su.flags value key.blockIndex))
      (fun _ => h) (Stored su.flags r key.blockIndex F) := by
  have hin : Gets su.flags V F (InItem su.flags r key.blockIndex) := fun tr s hs hP =>
    IsItem.inItem hi tr s hs (hitem tr s hs hP)
  have hlen := length_blockPart_le su.flags value key.blockIndex
  have hwhole := segmentOk_whole hflags.toGeometry hpos hlen
  have hsize : u32 (blockPart su.flags value key.blockIndex).length =
      (blockPart su.flags value key.blockIndex).length := by
    have := hflags.block_le
    exact u32_of_lt (by omega)
  refine Runs.bind (blockBuffer_runs hF) fun x => ?_
  cases x with
  | none => exact runs_pure rfl fun _ _ _ hP => ⟨hP.1, fun h => nomatch h⟩
  | some sbuf =>
      refine Runs.given (fun ⟨pad, hsbuf, hpad⟩ => Runs.pre ?_ (Gets.refl F).left)
        fun _ _ _ _ hP => hP.2 sbuf rfl
      have hroom := padded_room hflags.dataHyp hwhole hpad
      rw [Nat.zero_add] at hroom
      have hseg := segmentOk_padded hflags.toGeometry hpos hroom
      rw [← hsbuf] at hseg
      refine Runs.bind (allocBlockSegment_runs hF hflags hfree) fun y => ?_
      cases y with
      | none => exact runs_pure rfl fun _ _ _ hP => ⟨hP.1, fun h => nomatch h⟩
      | some g =>
          have hsegment : Gets su.flags V (fun tr s => F tr s ∧ IsSegment g
              ⟨0, u32 (blockPart su.flags value key.blockIndex).length, sbuf⟩ tr s)
              (SegmentOf su.flags g r key.blockIndex) := by
            rintro tr s hs ⟨hP, hlt, heq⟩
            obtain ⟨hr', _, hvalue⟩ := hitem tr s hs hP
            refine ⟨hr', hlt, ?_⟩
            unfold part
            rw [heq, hvalue]
            exact hseg
          have hF₁ := hF.and (@lasting_isSegment su.flags V g
            ⟨0, u32 (blockPart su.flags value key.blockIndex).length, sbuf⟩)
          refine Runs.pre (F := fun tr s => F tr s ∧ IsSegment g _ tr s) ?_
            fun tr s _ hP => ⟨hP.1, hP.2 g rfl⟩
          refine Runs.bind (newMem_runs hF₁ hflags.toGeometry hin.left) fun m => ?_
          have hF₂ := hF₁.and (@lasting_memOf su.flags V r key.blockIndex m)
          refine Runs.bind (writeMem_runs hF₂ hflags (Gets.refl _).right ?_) fun _ => ?_
          · intro tr s hs hP g' hg'
            exact List.mem_singleton.mp hg' ▸ hsegment tr s hs hP.1
          have hF₃ := hF₂.and (persistent_all (D := discipline su.flags V) fun g' =>
            persistent_all fun _ : g' ∈ [g] => @lasting_placed su.flags V m g')
          refine Runs.bind (placeMemBlock_runs hF₃ hfree hr hin.left.left.left
            (Gets.refl (MemOf m r key.blockIndex)).right.left ?_) fun _ =>
              runs_pure rfl fun _ _ _ hP => ⟨hP.1.1.1.1, fun _ => hP.2⟩
          -- the segment covers every slice of the block
          rintro tr s hs ⟨⟨⟨hP, _, heq⟩, _⟩, hplaced⟩ n hn
          obtain ⟨_, _, hvalue⟩ := hitem tr s hs hP
          unfold part at hn
          rw [hvalue] at hn
          refine ((hplaced g (List.mem_singleton_self g)).2 _ ?_).2
          rw [heq]
          refine ⟨Nat.zero_le _, ?_⟩
          rw [hsize, Nat.zero_add]
          exact Nat.lt_of_le_of_lt (Nat.div_mul_le_self ..) hn

theorem writeDiskBlock_runs (hF : Lasting su.flags V F) (hflags : Sized su.flags)
    (hfree : h.Free) (hr : 0 < h.items r) (hitem : Gets su.flags V F (IsItem r cacheKey value))
    {key : BlockKey} (hi : key.blockIndex < blockCountOf su.flags value.length)
    (hpos : 0 < (blockPart su.flags value key.blockIndex).length) :
    Runs su.flags V t h F (writeDiskBlock su r key (blockPart su.flags value key.blockIndex))
      (fun _ => h) (Stored su.flags r key.blockIndex F) := by
  have hin : Gets su.flags V F (InItem su.flags r key.blockIndex) := fun tr s hs hP =>
    IsItem.inItem hi tr s hs (hitem tr s hs hP)
  have hlen := length_blockPart_le su.flags value key.blockIndex
  have hwhole := segmentOk_whole hflags.toGeometry hpos hlen
  have hsize : u32 (blockPart su.flags value key.blockIndex).length =
      (blockPart su.flags value key.blockIndex).length := by
    have := hflags.block_le
    exact u32_of_lt (by omega)
  refine Runs.bind (allocDiskBlock_runs hF hfree hin) fun x => ?_
  cases x with
  | none => exact runs_pure rfl fun _ _ _ hP => ⟨hP, fun h => nomatch h⟩
  | some d =>
      have hd : 0 < (h.disk d).disks d := by
        rw [Held.disk_disks, if_pos rfl]
        exact Nat.succ_pos _
      refine Runs.bind (fill_runs (h := h.disk d) hF hflags hd ?_) fun st => Runs.bind (runs_when
        (G := fun _ => Stored su.flags r key.blockIndex F st) (fun hok => ?_) fun hfail => ?_)
          fun _ => ?_
      · intro tr s hs hP
        obtain ⟨hlt, _, hvalue⟩ := hitem tr s hs hP
        refine ⟨hlt, ?_⟩
        unfold part
        rw [hvalue]
        exact hwhole
      · refine (setDiskBlock_runs (h := h.disk d) hF hfree hr hd hin fun tr s hs hP p hp => ?_).post
          fun _ _ _ _ hP => ⟨hP.1, fun _ => hP.2⟩
        obtain ⟨_, _, hvalue⟩ := hitem tr s hs hP
        unfold part at hp
        rw [hvalue] at hp
        refine Or.inr ⟨hok, Nat.zero_le p, ?_⟩
        rwa [hsize, Nat.zero_add]
      · exact fun _ _ _ hP => ⟨hP.1, fun hok => absurd (hfail.symm.trans hok) (by decide)⟩
      · exact Runs.bind (dropDisk_runs (lasting_stored hF)) fun _ => runs_pure rfl (.refl _)

theorem writeBlock_runs (hF : Lasting su.flags V F) (hflags : Sized su.flags)
    (hfree : h.Free) (hr : 0 < h.items r) (hitem : Gets su.flags V F (IsItem r cacheKey value))
    {k : BlockKey} (hi : k.blockIndex < blockCountOf su.flags value.length)
    (hpos : 0 < (blockPart su.flags value k.blockIndex).length) :
    Runs su.flags V t h F (writeBlock su r k (blockPart su.flags value k.blockIndex))
      (fun _ => h) (Stored su.flags r k.blockIndex F) := by
  refine Runs.bind (ask_runs hF) fun location => ?_
  cases location with
  | mem => exact writeMemBlock_runs hF hflags hfree hr hitem hi hpos
  | disk => exact writeDiskBlock_runs hF hflags hfree hr hitem hi hpos
  | none => exact runs_pure rfl fun _ _ _ hP => ⟨hP, fun h => nomatch h⟩

/-! ## Sets -/

/-- The index gets the item when every block of it has been written. -/
theorem writeBlocks_runs (hF : Lasting su.flags V F) (hflags : Sized su.flags)
    (hfree : h.Free) (hr : 0 < h.items r) (hitem : Gets su.flags V F (IsItem r cacheKey value))
    (hunreleased : Gets su.flags V F (Unreleased r)) (hvalue : V.Has cacheKey value) :
    Runs su.flags V t h F (writeBlocks su id r value) (fun _ => h)
      fun st tr s => F tr s ∧ (st.ok = true → ⟨.insert id r, ()⟩ ∈ tr) := by
  have hlen := V.le hvalue
  have hdiv := Nat.div_le_self (value.length - 1) su.flags.blockSize
  have hend : u32 ((value.length - 1) / su.flags.blockSize : Nat) =
      (value.length - 1) / su.flags.blockSize := u32_of_lt (by omega)
  unfold writeBlocks
  rw [hend]
  have hcount : ∀ i, i ∈ List.range ((value.length - 1) / su.flags.blockSize + 1) ↔
      i < blockCountOf su.flags value.length := by
    intro i
    unfold blockCountOf
    rw [if_neg (Nat.ne_of_gt (V.pos hvalue)), List.mem_range]
  refine Runs.bind (runs_gatherUntil (N := WholeOf su.flags r) (fun _ => lasting_wholeOf) _ hF
    fun i hi F' hF' hgets => ?_) fun st => ?_
  · rw [hcount] at hi
    obtain ⟨heq, hpos⟩ := blockBytes_eq (V.pos hvalue) hi
    rw [heq] at hpos ⊢
    refine (writeBlock_runs (k := ⟨id, i⟩) hF' hflags hfree hr (fun tr s hs hP =>
      hitem tr s hs (hgets tr s hs hP)) hi hpos).post fun st tr s _ hP => ⟨hP.1, fun hgo => hP.2 ?_⟩
    rwa [Bool.not_eq_false'] at hgo
  · split
    next hok =>
      have hF' := hF.and (persistent_all (D := discipline su.flags V) fun i => persistent_all
        fun _ : i < blockCountOf su.flags value.length => @lasting_wholeOf su.flags V r i)
      refine Runs.pre (F := fun tr s => F tr s ∧ ∀ i < blockCountOf su.flags value.length,
        WholeOf su.flags r i tr s) ?_ fun tr s _ hP =>
          ⟨hP.1, fun i hi => hP.2 (by rw [hok]; rfl) i ((hcount i).mpr hi)⟩
      refine Runs.bind (leaves_when fun hbad => ?_) fun _ => Runs.bind (insert_runs hF' hr ?_)
        fun _ => runs_pure rfl fun _ _ _ hP => ⟨hP.1.1, fun _ => hP.2⟩
      · have := of_decide_eq_true hbad
        omega
      · rintro tr s hs ⟨hP, hwhole⟩ hfresh
        obtain ⟨_, _, hsize⟩ := hitem tr s hs hP
        refine ⟨(hunreleased tr s hs hP).2 hfresh, fun i hi => (hwhole i ?_).2 hfresh⟩
        exact hsize ▸ hi
    next hfail => exact runs_pure rfl fun _ _ _ hP => ⟨hP.1, fun hok => absurd hok hfail⟩

/-- The object is in the index. -/
def Inserted (id : CacheId) (cacheKey : CacheKey) (value : IOBuf) (st : Status) : Knowledge :=
  fun tr s => st.ok = true → ∃ r, ⟨.insert id r, ()⟩ ∈ tr ∧ IsItem r cacheKey value tr s

theorem lasting_inserted {flags : Flags} {st : Status} :
    Lasting flags V (Inserted id cacheKey value st) :=
  persistent_all fun _ => persistent_exists fun _ => persistent_deed.and lasting_isItem

theorem writeCacheItem_runs (hF : Lasting su.flags V F) (hflags : Sized su.flags)
    (hfree : h.Free) (hvalue : V.Has cacheKey value) :
    Runs su.flags V t h F (writeCacheItem su id cacheKey value) (fun _ => h)
      fun st tr s => F tr s ∧ Inserted id cacheKey value st tr s := by
  refine Runs.bind (allocCacheItem_runs hF hflags hfree hvalue) fun x => ?_
  cases x with
  | none => exact nullItem_runs hfree
  | some r =>
      have hr : 0 < (h.item r).items r := by
        rw [Held.item_items, if_pos rfl]
        exact Nat.succ_pos _
      have hF' := hF.and ((@lasting_isItem su.flags V r cacheKey value).and
        (@lasting_unreleased su.flags V r))
      refine Runs.pre (F := fun tr s => F tr s ∧ IsItem r cacheKey value tr s ∧ Unreleased r tr s)
        ?_ fun tr s _ hP => ⟨hP.1, hP.2 r rfl⟩
      refine Runs.bind (writeBlocks_runs (h := h.item r) hF' hflags hfree hr
        (Gets.refl (IsItem r cacheKey value)).left.right (Gets.refl (Unreleased r)).right.right
        hvalue) fun st => ?_
      have hF'' := hF'.and (persistent_all (D := discipline su.flags V) fun _ : st.ok = true =>
        persistent_deed (e := .insert id r) (a := ()))
      exact Runs.bind (dropItem_runs hF'') fun _ => runs_pure rfl fun _ _ _ hP =>
        ⟨hP.1.1, fun hok => ⟨r, hP.2 hok, hP.1.2.1⟩⟩

/-- A set that succeeds has put its object into the index. -/
theorem set_runs (hF : Lasting su.flags V F) (hflags : Sized su.flags) (hfree : h.Free)
    {overwrite : Bool} (hvalue : value ≠ [] → V.Has cacheKey value) :
    Runs su.flags V t h F (set su cacheKey value overwrite) (fun _ => h) fun st tr s =>
      F tr s ∧ Inserted (su.cachekey2id cacheKey) cacheKey value st tr s := by
  have hfail : ∀ {st : Status}, st.ok = false → Gets su.flags V F fun tr s =>
      F tr s ∧ Inserted (su.cachekey2id cacheKey) cacheKey value st tr s :=
    fun hst _ _ _ hP => ⟨hP, fun hok => absurd (hst.symm.trans hok) (by decide)⟩
  unfold set
  split
  · exact runs_pure rfl (hfail rfl)
  next hne =>
    have hvalue := hvalue fun hnil => hne (by rw [hnil]; rfl)
    refine Runs.bind (ask_runs hF) fun busy => ?_
    split
    · exact runs_pure rfl (hfail rfl)
    refine Runs.bind (find_runs hF) fun x => ?_
    cases x with
    | none => exact writeCacheItem_runs hF hflags hfree hvalue
    | some r =>
        have hr : 0 < (h.item r).items r := by
          rw [Held.item_items, if_pos rfl]
          exact Nat.succ_pos _
        have hF' := hF.and (@lasting_sought su.flags V r (su.cachekey2id cacheKey))
        dsimp only
        split
        · refine Runs.bind (Runs.post (removeCacheItem_leaves (h := h.item r) hF' hfree hr
            Sought.linked.right) fun _ => (Gets.refl F).left) fun _ => Runs.bind
              (writeCacheItem_runs (h := h.item r) hF hflags hfree hvalue) fun st => ?_
          exact Runs.bind (dropItem_runs (hF.and lasting_inserted)) fun _ => runs_pure rfl (.refl _)
        · exact Runs.bind (Runs.forget (dropItem_runs hF')) fun _ => runs_pure rfl (hfail rfl)

/-! ## Gets and reads -/

/-- The part of an object that a request is for. -/
def requested (request : Option (Int × Nat)) (value : IOBuf) : IOBuf :=
  match request with
  | none => value
  | some (offset, size) => (value.drop offset.toNat).take size

/-- A request whose end can be computed. -/
def Fits (request : Option (Int × Nat)) : Prop :=
  ∀ offset size, request = some (offset, size) → 0 ≤ offset ∧
    offset + size < 18446744073709551616

theorem readFound_runs {K : Deeds Atom Atom.Answer → Prop} (hF : Lasting su.flags V F)
    (hK : ∀ tr s, F tr s → K tr) (hflags : Sized su.flags) (hfree : h.Free)
    (hr : 0 < h.items r) (hlinked : Gets su.flags V F (Linked r)) {request : Option (Int × Nat)}
    (hrequest : Fits request) :
    Runs su.flags V t h F (readFound su id cacheKey r request) (fun _ => h) fun a tr s => F tr s ∧
      (a.1.ok = true → Upon ⟨.getReleased r, false⟩ K tr s ∧ ∃ value, IsItem r cacheKey value tr s ∧
        a.2 = requested request value) := by
  refine Runs.bind (getItem_runs hF hr) fun item => ?_
  split
  · exact runs_pure rfl fun _ _ _ hP => ⟨hP.1, fun h => nomatch h⟩
  next hkey =>
    rw [ne_eq, not_not] at hkey
    refine Runs.pre (F := fun tr s => ∃ value, (F tr s ∧ IsItem r cacheKey value tr s) ∧
      V.Has cacheKey value ∧ value.length = item.2) (runs_exists fun value => ?_) ?_
    swap
    · rintro tr s hs ⟨hP, hlt, hkey', hsize⟩
      have hvalue := hs.contents.value r hlt
      rw [hkey', hkey] at hvalue
      exact ⟨_, ⟨hP, hlt, hkey'.trans hkey, rfl⟩, hvalue, hsize⟩
    refine Runs.given (fun ⟨hvalue, hsize⟩ => Runs.pre ?_ (Gets.refl _).left)
      fun _ _ _ _ hP => hP.2
    have hF' := hF.and (@lasting_isItem su.flags V r cacheKey value)
    have hlen := V.le hvalue
    refine Runs.bind (isReleased_runs hF' (fun tr s hP => hK tr s hP.1) hfree hr) fun released => ?_
    cases released with
    | true => exact runs_pure rfl fun _ _ _ hP => ⟨hP.1.1, fun h => nomatch h⟩
    | false =>
    have hF'' := hF'.and (persistent_upon (D := discipline su.flags V)
      (d := ⟨.getReleased r, false⟩) (K := K))
    have hdone : ∀ {o size : Nat}, (value.drop o).take size = requested request value →
        ∀ a : Status × IOBuf, Gets su.flags V
          (fun tr s => ((F tr s ∧ IsItem r cacheKey value tr s) ∧ Upon ⟨.getReleased r, false⟩ K tr s) ∧
            (a.1.ok = true → a.2 = (value.drop o).take size))
          fun tr s => F tr s ∧ (a.1.ok = true → Upon ⟨.getReleased r, false⟩ K tr s ∧
            ∃ value, IsItem r cacheKey value tr s ∧ a.2 = requested request value) :=
      fun heq a tr s _ hP =>
        ⟨hP.1.1.1, fun hok => ⟨hP.1.2, value, hP.1.1.2, (hP.2 hok).trans heq⟩⟩
    cases request with
    | none =>
        refine (readCacheItem_runs hF'' hflags hfree hr hlinked.left.left
          (Gets.refl (IsItem r cacheKey value)).right.left hvalue (o := 0)
          (by omega)).post (hdone ?_)
        rw [List.drop_zero, List.take_of_length_le (Nat.le_of_eq hsize)]
        rfl
    | some request =>
        obtain ⟨offset, size⟩ := request
        obtain ⟨hoffset, hwrap⟩ := hrequest offset size rfl
        have heq := Int.toNat_of_nonneg hoffset
        dsimp only
        rw [← heq]
        exact (readCacheItem_runs hF'' hflags hfree hr hlinked.left.left
          (Gets.refl (IsItem r cacheKey value)).right.left hvalue
          (by omega)).post (hdone rfl)

/-- What a successful read returns is of an object that it found, and that was not released. -/
theorem read_runs (hF : Lasting su.flags V F) (hflags : Sized su.flags) (hfree : h.Free)
    {request : Option (Int × Nat)} (hrequest : Fits request) :
    Runs su.flags V t h F (read su cacheKey request) (fun _ => h) fun a tr s => F tr s ∧
      (a.1.ok = true → ∃ r value, Upon ⟨.getReleased r, false⟩
        (fun tr => ⟨.find (su.cachekey2id cacheKey), some r⟩ ∈ tr) tr s ∧
        IsItem r cacheKey value tr s ∧ a.2 = requested request value) := by
  refine Runs.bind (find_runs hF) fun x => ?_
  cases x with
  | none => exact runs_pure rfl fun _ _ _ hP => ⟨hP, fun h => nomatch h⟩
  | some r =>
      have hr : 0 < (h.item r).items r := by
        rw [Held.item_items, if_pos rfl]
        exact Nat.succ_pos _
      have hF₁ := hF.and (@lasting_sought su.flags V r (su.cachekey2id cacheKey))
      refine Runs.bind (readFound_runs (h := h.item r) hF₁ (fun _ _ hP => hP.2.1) hflags hfree hr
        Sought.linked.right hrequest) fun a => ?_
      have hF₂ := hF₁.and (persistent_all fun _ : a.1.ok = true =>
        (persistent_upon (D := discipline su.flags V) (d := ⟨.getReleased r, false⟩)
          (K := fun tr => ⟨.find (su.cachekey2id cacheKey), some r⟩ ∈ tr)).and
          (persistent_exists fun value => (@lasting_isItem su.flags V r cacheKey value).and
            (persistent_const (a.2 = requested request value))))
      refine Runs.bind (dropItem_runs hF₂) fun _ =>
        runs_pure rfl fun tr s _ ⟨⟨hP, _⟩, hgot⟩ => ⟨hP, fun hok => ?_⟩
      obtain ⟨hlooked, value, hitem, hbuf⟩ := hgot hok
      exact ⟨r, value, hlooked, hitem, hbuf⟩

/-! ## Removes -/

/-- An object that is found has been released, by the remove or before. -/
theorem remove_runs (hF : Lasting su.flags V F) (hfree : h.Free) :
    Runs su.flags V t h F (remove su cacheKey) (fun _ => h) fun st tr s => F tr s ∧
      (st.ok = true → ∃ r, ⟨.find (su.cachekey2id cacheKey), some r⟩ ∈ tr ∧ Ousted r tr s) := by
  refine Runs.bind (find_runs hF) fun x => ?_
  cases x with
  | none => exact runs_pure rfl fun _ _ _ hP => ⟨hP, fun h => nomatch h⟩
  | some r =>
      have hr : 0 < (h.item r).items r := by
        rw [Held.item_items, if_pos rfl]
        exact Nat.succ_pos _
      have hF₁ := hF.and (@lasting_sought su.flags V r (su.cachekey2id cacheKey))
      have hdone : ∀ st : Status, Lasting su.flags V fun tr s =>
          (F tr s ∧ Sought (su.cachekey2id cacheKey) r tr s) ∧ (st.ok = true → Ousted r tr s) :=
        fun st => hF₁.and (persistent_all fun _ : st.ok = true => lasting_ousted)
      have hremove : Runs su.flags V t (h.item r)
          (fun tr s => F tr s ∧ Sought (su.cachekey2id cacheKey) r tr s)
          (removeFound su (su.cachekey2id cacheKey) cacheKey r) (fun _ => h.item r) fun st tr s =>
            (F tr s ∧ Sought (su.cachekey2id cacheKey) r tr s) ∧
              (st.ok = true → Ousted r tr s) := by
        refine Runs.bind (Runs.forget (getItem_runs (h := h.item r) hF₁ hr)) fun item => ?_
        split
        · exact runs_pure rfl fun _ _ _ hP => ⟨hP, fun h => nomatch h⟩
        · have hF₂ := hF₁.and (@lasting_ousted su V r)
          exact Runs.bind (setReleased_runs (h := h.item r) hF₁ hfree hr Sought.linked.right)
            fun released => Runs.bind (leaves_when fun _ => removeCacheItem_leaves (h := h.item r) hF₂
              hfree hr Sought.linked.right.left) fun _ =>
                runs_pure rfl fun _ _ _ hP => ⟨hP.1, fun _ => hP.2⟩
      exact Runs.bind hremove fun st => Runs.bind (dropItem_runs (hdone st)) fun _ =>
        runs_pure rfl fun _ _ _ hP => ⟨hP.1.1, fun hok => ⟨r, hP.1.2.1, hP.2 hok⟩⟩

end Sharing

end StarCache
